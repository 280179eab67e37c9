import Meinheld.SplitBuffers
import Meinheld.SplitReads

/-! The calls of `header_field_cb`, and the names and values that `add_header` finds. -/
namespace Meinheld

/-! ### Callbacks that also keep a record -/

section Maps

variable {σ τ : Type} {cb : Settings σ} {cb' : Settings τ} {f : σ → τ}

/-- `cb` does to its data what `cb'` does to a part of it. -/
structure Settings.Over (cb : Settings σ) (cb' : Settings τ) (f : σ → τ) : Prop where
  notify : ∀ n p d, cb'.onNotify n p (f d) = ((cb.onNotify n p d).1,f (cb.onNotify n p d).2)
  data : ∀ k p buf d, cb'.onData k p buf (f d) = ((cb.onData k p buf d).1,f (cb.onData k p buf d).2)

theorem runActs_over (h : cb.Over cb' f) (ch : Byte) (as : List Act) (d : σ)
    (k : Option (Mark × Bytes)) : runActs cb' ch as ⟨f d,k⟩ =
      match runActs cb ch as ⟨d,k⟩ with
      | .ok m => .ok ⟨f m.data,m.mark⟩
      | .error r => .error (r.1,f r.2.1,r.2.2) := by
  induction as generalizing d k with
  | nil => rfl
  | cons a as ih =>
    cases a with
    | mark k' => exact ih d _
    | data k' incl adv p =>
      cases k with
      | none => exact ih d none
      | some kb =>
        simp only [runActs,h.data]
        cases hr : cb.onData k' p (if incl then kb.2 ++ [ch] else kb.2) d with
        | mk b e =>
          cases b with
          | true => exact ih e none
          | false => rfl
    | notify n adv p =>
      simp only [runActs,h.notify]
      cases hr : cb.onNotify n p d with
      | mk b e =>
        cases b with
        | true => exact ih e k
        | false => rfl

/-- `executeLoop`, where `see` notes each byte before its callbacks run. -/
def seeLoop (see : Byte → σ → σ) (cb : Settings σ) :
    HttpParser → Marked σ → ℕ → Bytes → HttpParser × σ × ℤ
  | p, m, pos, [] =>
    let r := flushMark cb p m
    (r.1,r.2,pos)
  | p, m, pos, ch :: rest =>
    match step p ch with
    | .error q => (q,m.data,pos)
    | .bail q => (q,m.data,-1)
    | .stop acts q =>
      match runActs cb ch acts { m with data := see ch m.data } with
      | .ok m' => (q,m'.data,(pos + 1 : ℕ))
      | .error (e,d,adv) => (e,d,(pos + adv : ℕ))
    | .next acts q =>
      match runActs cb ch acts { m with data := see ch m.data } with
      | .ok m' => seeLoop see cb q (m'.push ch) (pos + 1) rest
      | .error (e,d,adv) => (e,d,(pos + adv : ℕ))

/-- `httpParserExecute`, where `see` notes each byte. -/
def seeExecute (see : Byte → σ → σ) (cb : Settings σ) (p : HttpParser) (d : σ) (data : Bytes) :
    HttpParser × σ × ℤ :=
  if p.httpErrno ≠ .OK then (p,d,0)
  else if data = [] then
    match p.state with
    | .sDead | .sStartReq => (p,d,0)
    | _ => ({ p with httpErrno := .INVALID_EOF_STATE },d,1)
  else seeLoop see cb p { data := d, mark := entryMark p.state } 0 data

theorem flushMark_over (h : cb.Over cb' f) (p : HttpParser) (d : σ) (k : Option (Mark × Bytes)) :
    flushMark cb' p ⟨f d,k⟩ = ((flushMark cb p ⟨d,k⟩).1,f (flushMark cb p ⟨d,k⟩).2) := by
  cases k with
  | none => rfl
  | some kb =>
    simp only [flushMark,h.data]
    cases cb.onData kb.1 p kb.2 d with
    | mk b e => cases b <;> rfl

theorem seeLoop_over (h : cb.Over cb' f) (see : Byte → σ → σ) (hsee : ∀ ch d, f (see ch d) = f d)
    (data : Bytes) (p : HttpParser) (d : σ) (k : Option (Mark × Bytes)) (pos : ℕ) :
    executeLoop cb' p ⟨f d,k⟩ pos data =
      ((seeLoop see cb p ⟨d,k⟩ pos data).1,f (seeLoop see cb p ⟨d,k⟩ pos data).2.1,
        (seeLoop see cb p ⟨d,k⟩ pos data).2.2) := by
  induction data generalizing p d k pos with
  | nil => simp only [executeLoop,seeLoop,flushMark_over h]
  | cons ch rest ih =>
    have hover := fun acts => runActs_over h ch acts (see ch d) k
    simp only [hsee] at hover
    cases hs : step p ch with
    | error q => simp only [executeLoop,seeLoop,hs]
    | bail q => simp only [executeLoop,seeLoop,hs]
    | stop acts q =>
      cases hr : runActs cb ch acts ⟨see ch d,k⟩ <;> simp only [executeLoop,seeLoop,hs,hover,hr]
    | next acts q =>
      cases hr : runActs cb ch acts ⟨see ch d,k⟩ with
      | error r => simp only [executeLoop,seeLoop,hs,hover,hr]
      | ok m =>
        simp only [executeLoop,seeLoop,hs,hover,hr]
        exact ih q m.data _ (pos + 1)

theorem seeExecute_over (h : cb.Over cb' f) (see : Byte → σ → σ) (hsee : ∀ ch d, f (see ch d) = f d)
    (p : HttpParser) (d : σ) (data : Bytes) : httpParserExecute cb' p (f d) data =
      ((seeExecute see cb p d data).1,f (seeExecute see cb p d data).2.1,
        (seeExecute see cb p d data).2.2) := by
  unfold httpParserExecute seeExecute
  split
  · rfl
  · split
    · cases p.state <;> rfl
    · exact seeLoop_over h see hsee data p d _ 0

theorem seeLoop_id (p : HttpParser) (m : Marked σ) (pos : ℕ) (data : Bytes) :
    seeLoop (fun _ d => d) cb p m pos data = executeLoop cb p m pos data := by
  induction data generalizing p m pos with
  | nil => rfl
  | cons ch rest ih =>
    obtain ⟨d,k⟩ := m
    cases hs : step p ch with
    | next acts q =>
      cases hr : runActs cb ch acts ⟨d,k⟩ with
      | error e => simp only [seeLoop,executeLoop,hs,hr]
      | ok m' =>
        simp only [seeLoop,executeLoop,hs,hr]
        exact ih q _ (pos + 1)
    | stop acts q => cases hr : runActs cb ch acts ⟨d,k⟩ <;> simp only [seeLoop,executeLoop,hs,hr]
    | _ => simp only [seeLoop,executeLoop,hs]

theorem executeLoop_over (h : cb.Over cb' f) (data : Bytes) (p : HttpParser) (d : σ)
    (k : Option (Mark × Bytes)) (pos : ℕ) : executeLoop cb' p ⟨f d,k⟩ pos data =
      ((executeLoop cb p ⟨d,k⟩ pos data).1,f (executeLoop cb p ⟨d,k⟩ pos data).2.1,
        (executeLoop cb p ⟨d,k⟩ pos data).2.2) := by
  have hover := seeLoop_over h (fun _ d => d) (fun _ _ => rfl) data p d k pos
  simpa only [seeLoop_id] using hover

theorem runActs_errno {ch : Byte} {as : List Act} {m : Marked σ} {r : HttpParser × σ × ℕ}
    (h : runActs cb ch as m = .error r) : r.1.httpErrno ≠ .OK := by
  induction as generalizing m with
  | nil => cases h
  | cons a as ih =>
    cases a with
    | mark k => exact ih h
    | data k incl adv p =>
      simp only [runActs] at h
      split at h
      · exact ih h
      · split at h
        · exact ih h
        · cases h
          cases k <;> simp [dataErrno]
    | notify n adv p =>
      simp only [runActs] at h
      split at h
      · exact ih h
      · cases h
        cases n <;> simp [notifyErrno]

/-- What each callback of a byte keeps when it succeeds, and leaves when it fails. -/
def Act.Keeps (cb : Settings σ) (I F : σ → Prop) : Act → Prop
  | .mark _ => True
  | .data k _ _ p => ∀ buf d, I d → (∀ e, cb.onData k p buf d = (true,e) → I e) ∧
      ∀ e, cb.onData k p buf d = (false,e) → F e
  | .notify n _ p => ∀ d, I d → (∀ e, cb.onNotify n p d = (true,e) → I e) ∧
      ∀ e, cb.onNotify n p d = (false,e) → F e

theorem Act.Keeps.run {I F : σ → Prop} (ch : Byte) {as : List Act} {m : Marked σ}
    (h : ∀ a ∈ as, a.Keeps cb I F) (hI : I m.data) :
    (∀ m', runActs cb ch as m = .ok m' → I m'.data) ∧
      ∀ r, runActs cb ch as m = .error r → F r.2.1 := by
  induction as generalizing m with
  | nil => exact ⟨fun m' hm => by cases hm; exact hI,fun r hr => by cases hr⟩
  | cons a as ih =>
    obtain ⟨ha,has⟩ := List.forall_mem_cons.mp h
    cases a with
    | mark k =>
      simp only [runActs]
      exact ih (m := { m with mark := m.mark.or (some (k,[])) }) has hI
    | data k incl adv p =>
      simp only [runActs]
      split
      · exact ih has hI
      next buf _ =>
        obtain ⟨hok,hfail⟩ := ha (if incl then buf ++ [ch] else buf) m.data hI
        split
        next e he => exact ih (m := { data := e }) has (hok e he)
        next e he => exact ⟨by simp,fun r hr => by cases hr; exact hfail e he⟩
    | notify n adv p =>
      simp only [runActs]
      obtain ⟨hok,hfail⟩ := ha m.data hI
      split
      next e he => exact ih (m := { m with data := e }) has (hok e he)
      next e he => exact ⟨by simp,fun r hr => by cases hr; exact hfail e he⟩

end Maps

/-! ### The lines of a head, and of a trailer -/

/-- Where a state is: between two messages, in the name of a header, at its value, in the text of
its value, or anywhere else. -/
inductive LineKind
  | between | name | value | text | other
  deriving DecidableEq, Repr

def State.kind : State → LineKind
  | .sDead | .sStartReq => .between
  | .sHeaderField => .name
  | .sHeaderValueStart | .sHeaderAlmostDone | .sHeaderValueLws => .value
  | .sHeaderValue => .text
  | _ => .other

/-- The states behind the head, but for those of a trailer. -/
def State.after : State → Bool
  | .sHeadersDone | .sChunkSizeStart | .sChunkSize | .sChunkParameters | .sChunkSizeAlmostDone
  | .sChunkData | .sChunkDataAlmostDone | .sChunkDataDone | .sBodyIdentity | .sMessageDone => true
  | _ => false

/-- The head of the message is over. -/
def HttpParser.behind (p : HttpParser) : Bool := p.flags.trailing || p.state.after

def Act.isAside : Act → Bool
  | .mark .url | .mark .body | .data .url _ _ _ | .data .body _ _ _
  | .notify .messageComplete _ _ => true
  | _ => false

/-- What one byte does to the lines of a head or of a trailer. -/
inductive LineTurn (p : HttpParser) : List Act → HttpParser → Prop
  | aside {acts q} : (∀ a ∈ acts, a.isAside) → (q.state.kind = .between ∨
      p.state.kind ≠ .between ∧ q.behind = p.behind ∧
        (q.state.kind = p.state.kind ∨ p.state.kind = .value ∧ q.state.kind = .other)) →
      LineTurn p acts q
  | begins {q} : q.state.kind = .other → q.behind = false →
      LineTurn p [callbackNotify .messageBegin q] q
  | nameStart {q} : p.state.kind = .value ∨ p.state.kind = .other → p.behind = p.flags.trailing →
      q.state.kind = .name → q.behind = p.behind → LineTurn p [.mark .headerField] q
  | nameEnd {q} : p.state.kind = .name → q.state.kind = .value ∨ q.state.kind = .other →
      q.behind = p.behind → q.flags = p.flags → LineTurn p [callbackData .headerField q] q
  | valueStart {q} : p.state.kind = .value → q.state.kind = .text → q.behind = p.behind →
      LineTurn p [.mark .headerValue] q
  | valueEmpty {adv r q} : p.state.kind = .value → q.state.kind = .value ∨ q.state.kind = .other →
      q.behind = p.behind → LineTurn p [.mark .headerValue,.data .headerValue false adv r] q
  | valueEnd {adv r q} : p.state.kind = .text → q.state.kind = .value → q.behind = p.behind →
      LineTurn p [.data .headerValue false adv r] q
  | headEnd {adv r acts q} : p.state.kind = .value ∨ p.state.kind = .other → p.behind = false →
      (∀ a ∈ acts, a.isAside) → q.state.kind = .between ∨ q.state.kind = .other ∧ q.behind →
      LineTurn p (.notify .headersComplete adv r :: acts) q

def Step.LineTurns (p : HttpParser) : Step → Prop
  | .next acts q => LineTurn p acts q
  | .stop _ q => q.state.kind = .between
  | .bail _ | .error _ => True

/-- A byte behind the head. -/
def Step.Leaves : Step → Prop
  | .next acts q => (∀ a ∈ acts, a.isAside) ∧
      (q.state.kind = .between ∨ q.state.kind = .other ∧ q.behind)
  | .stop _ q => q.state.kind = .between
  | .bail _ | .error _ => True

theorem Step.Leaves.ite {c : Prop} [Decidable c] {a b : Step} (ha : a.Leaves) (hb : b.Leaves) :
    (if c then a else b).Leaves := by
  split <;> assumption

theorem Step.LineTurns.ite {p : HttpParser} {c : Prop} [Decidable c] {a b : Step} (ha : a.LineTurns p)
    (hb : b.LineTurns p) : (if c then a else b).LineTurns p := by
  split <;> assumption

theorem Step.Leaves.after {s : Step} {as : List Act} (h : s.Leaves) (has : ∀ a ∈ as, a.isAside) :
    (s.after as).Leaves := by
  cases s with
  | next bs q => exact ⟨fun a ha => (List.mem_append.mp ha).elim (has a) (h.1 a),h.2⟩
  | stop bs q => exact h
  | bail q => trivial
  | error q => trivial

theorem Step.Leaves.turns {s : Step} {p : HttpParser} (h : s.Leaves) (hk : p.state.kind = .other)
    (hb : p.behind) : s.LineTurns p := by
  cases s with
  | next acts q =>
    refine .aside h.1 (h.2.imp_right fun hq => ⟨by simp [hk],by rw [hq.2,hb],.inl ?_⟩)
    rw [hq.1,hk]
  | stop acts q => exact h
  | bail q => trivial
  | error q => trivial

theorem newMessage_kind (p : HttpParser) : (newMessage p).kind = .between := by
  unfold newMessage
  split <;> rfl

theorem messageDone_leaves (p : HttpParser) : (messageDone p).Leaves :=
  ⟨by simp [Act.isAside],.inl (newMessage_kind p)⟩

theorem stepHeadersDone_leaves (p : HttpParser) (ch : Byte) : (stepHeadersDone p ch).Leaves := by
  unfold stepHeadersDone
  refine .ite trivial ?_
  simp only
  split
  · exact newMessage_kind _
  · exact .ite ⟨by simp,.inr ⟨rfl,by simp [HttpParser.behind,State.after]⟩⟩
      (.ite (messageDone_leaves _) (.ite ⟨by simp,.inr ⟨rfl,by simp [HttpParser.behind,State.after]⟩⟩
        (messageDone_leaves _)))

theorem stepState_leaves {p : HttpParser} (h : p.state.after) (ch : Byte) :
    (stepState p ch).Leaves := by
  have hstay : ∀ q : HttpParser, q.state.after → q.state.kind = .other →
      (Step.next [] q).Leaves := fun q ha hk =>
    ⟨by simp,.inr ⟨hk,by simp [HttpParser.behind,ha]⟩⟩
  unfold stepState
  cases hs : p.state <;> simp only [hs] at h ⊢
  all_goals first
    | exact absurd h (by decide)
    | exact stepHeadersDone_leaves p ch
    | exact messageDone_leaves p
    | skip
  all_goals
    try simp only [stepChunkSizeStart,stepChunkSize,stepChunkParameters,stepChunkSizeAlmostDone,
      stepBodyIdentity,stepChunkData,stepChunkDataAlmostDone,stepChunkDataDone,setErrno]
    repeat' split
    all_goals first
      | trivial
      | exact hstay _ rfl rfl
      | exact hstay _ (by rw [hs]; rfl) (by rw [hs]; rfl)
      | exact (messageDone_leaves _).after (by simp [Act.isAside])
      | exact ⟨by simp [Act.isAside],.inr ⟨by simp [State.kind,hs],
          by simp [HttpParser.behind,State.after,hs]⟩⟩

theorem stepHeadersAlmostDone_lineTurn {p q : HttpParser} (ch : Byte)
    (hk : p.state.kind = .value ∨ p.state.kind = .other) (hb : p.behind = p.flags.trailing)
    (hf : q.flags = p.flags) : (stepHeadersAlmostDone q ch).LineTurns p := by
  unfold stepHeadersAlmostDone
  refine .ite trivial ?_
  split
  next ht => exact .aside (by simp [Act.isAside]) (.inl (newMessage_kind q))
  next ht =>
    refine .ite trivial ?_
    have hleave := stepHeadersDone_leaves { q with
      state := .sHeadersDone, upgrade := q.flags.upgrade || q.method == .CONNECT } ch
    generalize stepHeadersDone { q with
      state := .sHeadersDone, upgrade := q.flags.upgrade || q.method == .CONNECT } ch = s at hleave
    cases s with
    | next acts r =>
      exact .headEnd hk (by rw [hb,← hf]; simpa using ht) hleave.1 hleave.2
    | stop acts r => exact hleave
    | bail r => trivial
    | error r => trivial

theorem stepHeaderFieldStart_lineTurn {p q : HttpParser} (ch : Byte)
    (hk : p.state.kind = .value ∨ p.state.kind = .other) (hb : p.behind = p.flags.trailing)
    (hf : q.flags = p.flags) : (stepHeaderFieldStart q ch).LineTurns p := by
  have hbehind : ∀ r : HttpParser, r.flags = q.flags → r.state.after = false →
      r.behind = p.behind := fun r hr hs => by
    simp [HttpParser.behind,hr,hs,hf] at hb ⊢
    exact hb
  unfold stepHeaderFieldStart
  refine .ite ?_ (.ite (stepHeadersAlmostDone_lineTurn ch hk hb hf) (.ite trivial ?_))
  · refine .aside (by simp) (.inr ⟨by rcases hk with hk | hk <;> simp [hk],hbehind _ rfl rfl,?_⟩)
    rcases hk with hk | hk
    · exact .inr ⟨hk,rfl⟩
    · exact .inl hk.symm
  · exact .nameStart hk hb rfl (hbehind _ rfl rfl)

theorem urlByte_lineTurn {p q : HttpParser} {as : List Act} (ch : Byte) (has : ∀ a ∈ as, a.isAside)
    (hk : p.state.kind = .other) (hs : p.state.after = false) (hf : q.flags = p.flags) :
    (urlByte as q ch).LineTurns p := by
  unfold urlByte
  simp only
  split
  · trivial
  next hd =>
    have hm := (parseUrlChar_mark q.state ch).resolve_left hd
    have hurl : (parseUrlChar q.state ch).kind = .other ∧ (parseUrlChar q.state ch).after = false := by
      generalize parseUrlChar q.state ch = s at hm
      cases s <;> first | exact ⟨rfl,rfl⟩ | cases hm
    exact .aside has (.inr ⟨by simp [hk],by simp [HttpParser.behind,hf,hs,hurl.2],.inl
      (by rw [hk]; exact hurl.1)⟩)

theorem stepStartReq_lineTurn {p : HttpParser} (hs : p.state = .sStartReq) (ch : Byte) :
    (stepStartReq p ch).LineTurns p := by
  unfold stepStartReq
  refine .ite (.aside (by simp) (.inl (by rw [hs]; rfl))) ?_
  iterate 13 refine .ite (.begins rfl rfl) ?_
  trivial

/-- Before the lines of the head. -/
theorem stepState_unlined {p : HttpParser} (hk : p.state.kind = .other) (ha : p.state.after = false)
    (ch : Byte) : (stepState p ch).LineTurns p := by
  have hstay : ∀ q : HttpParser, q.flags = p.flags → q.state.kind = .other →
      q.state.after = false → (Step.next [] q).LineTurns p := fun q hf hq hs =>
    .aside (by simp) (.inr ⟨by simp [hk],by simp [HttpParser.behind,hf,ha,hs],.inl (by rw [hk,hq])⟩)
  have hb : p.behind = p.flags.trailing := by simp [HttpParser.behind,ha]
  unfold stepState
  cases hs : p.state <;> simp only [hs] at hk ha ⊢
  all_goals first
    | exact absurd hk (by decide)
    | exact absurd ha (by decide)
    | exact stepHeadersAlmostDone_lineTurn ch (.inr (by rw [hs]; rfl)) hb rfl
    | exact stepHeaderFieldStart_lineTurn ch (.inr (by rw [hs]; rfl)) hb rfl
    | skip
  all_goals
    try simp only [stepReqMethod,stepReqSpacesBeforeUrl,stepUrl,stepReqHttpStart,strictNext,
      stepReqFirstHttpMajor,stepReqHttpMajor,stepReqFirstHttpMinor,stepReqHttpMinor,setErrno]
    repeat' split
    all_goals first
      | trivial
      | exact hstay _ rfl rfl rfl
      | exact hstay _ rfl (by rw [hs]; rfl) (by rw [hs]; rfl)
      | exact urlByte_lineTurn ch (by simp [Act.isAside]) (by rw [hs]; rfl) (by rw [hs]; rfl) rfl
      | exact .aside (by simp [Act.isAside]) (.inr ⟨by rw [hs]; decide,
          by simp [HttpParser.behind,hs,State.after],.inl (by simp [hs,State.kind])⟩)

theorem headerFieldToken_behind (p : HttpParser) (ch : Byte) :
    (headerFieldToken p ch).behind = p.behind := by
  unfold headerFieldToken matchNext
  simp only
  repeat' split
  all_goals rfl

theorem headerValueFirst_trailing {p q : HttpParser} {ch : Byte}
    (h : headerValueFirst p ch = some q) : q.flags.trailing = p.flags.trailing := by
  unfold headerValueFirst at h
  simp only at h
  repeat' split at h
  all_goals first | cases h; rfl | cases h

theorem headerValueNext_trailing {p q : HttpParser} {ch : Byte}
    (h : headerValueNext p ch = some q) : q.flags.trailing = p.flags.trailing := by
  unfold headerValueNext matchNext at h
  simp only at h
  repeat' split at h
  all_goals first
    | cases h; rfl
    | cases h
    | obtain ⟨t,-,rfl⟩ := Option.map_eq_some_iff.mp h
      rfl

theorem stepHeaderAlmostDone_next {p q : HttpParser} {ch : Byte} {acts : List Act}
    (h : stepHeaderAlmostDone p ch = .next acts q) :
    acts = [] ∧ q.state = .sHeaderValueLws ∧ q.flags.trailing = p.flags.trailing := by
  unfold stepHeaderAlmostDone setErrno at h
  split at h
  · cases h
  · obtain ⟨rfl,rfl⟩ := Step.next.inj h
    refine ⟨rfl,rfl,?_⟩
    simp only
    split <;> rfl

/-- Inside a header. -/
theorem stepState_inHeader {p : HttpParser} (hk : p.state.kind = .name ∨ p.state.kind = .value ∨
    p.state.kind = .text) (ch : Byte) : (stepState p ch).LineTurns p := by
  have ha : p.state.after = false := by
    generalize p.state = s at hk
    cases s <;> first | rfl | simp [State.kind] at hk
  have hb : p.behind = p.flags.trailing := by simp [HttpParser.behind,ha]
  have hsame : ∀ q : HttpParser, q.flags.trailing = p.flags.trailing → q.state.after = false →
      q.behind = p.behind := fun q hf hs => by simp [HttpParser.behind,hf,hs,ha]
  unfold stepState
  cases hs : p.state <;> rw [hs] at hk <;> simp only
  all_goals first | exact absurd hk (by decide) | skip
  case sHeaderField =>
    have hname : p.state.kind = .name := by rw [hs]; rfl
    refine .ite ?_ (.ite ?_ (.ite ?_ (.ite ?_ trivial)))
    · have hstate := headerFieldToken_state p ch
      exact .aside (by simp) (.inr ⟨by simp [hname],headerFieldToken_behind p ch,.inl (by rw [hstate])⟩)
    · exact .nameEnd hname (.inl rfl) (hsame _ rfl rfl) rfl
    · exact .nameEnd hname (.inl rfl) (hsame _ rfl rfl) rfl
    · exact .nameEnd hname (.inr rfl) (hsame _ rfl rfl) rfl
  case sHeaderValueStart =>
    have hvalue : p.state.kind = .value := by rw [hs]; rfl
    refine .ite (.aside (by simp) (.inr ⟨by simp [hvalue],rfl,.inl rfl⟩)) (.ite ?_ (.ite ?_ ?_))
    · exact .valueEmpty hvalue (.inl rfl) (hsame _ rfl rfl)
    · exact .valueEmpty hvalue (.inr rfl) (hsame _ rfl rfl)
    · split
      next q hq =>
        have hstate := headerValueFirst_state hq
        have htrail := headerValueFirst_trailing hq
        exact .valueStart hvalue (by rw [hstate]; rfl) (hsame _ htrail (by rw [hstate]; rfl))
      · trivial
  case sHeaderValue =>
    have htext : p.state.kind = .text := by rw [hs]; rfl
    refine .ite (.valueEnd htext rfl (hsame _ rfl rfl)) (.ite ?_ ?_)
    · simp only
      cases hd : stepHeaderAlmostDone { p with state := .sHeaderAlmostDone } ch with
      | next acts q =>
        obtain ⟨rfl,hq,hf⟩ := stepHeaderAlmostDone_next hd
        exact .valueEnd htext (by rw [hq]; rfl) (hsame _ hf (by rw [hq]; rfl))
      | stop acts q =>
        unfold stepHeaderAlmostDone setErrno at hd
        split at hd <;> cases hd
      | bail q => trivial
      | error q => trivial
    · split
      next q hq =>
        have hstate := headerValueNext_state hq
        exact .aside (by simp) (.inr ⟨by simp [htext],hsame _ (headerValueNext_trailing hq)
          (by rw [hstate,hs]; rfl),.inl (by rw [hstate])⟩)
      · trivial
  case sHeaderAlmostDone =>
    have hvalue : p.state.kind = .value := by rw [hs]; rfl
    cases hd : stepHeaderAlmostDone p ch with
    | next acts q =>
      obtain ⟨rfl,hq,hf⟩ := stepHeaderAlmostDone_next hd
      exact .aside (by simp) (.inr ⟨by simp [hvalue],hsame _ hf (by rw [hq]; rfl),
        .inl (by rw [hq,hvalue]; rfl)⟩)
    | stop acts q =>
      unfold stepHeaderAlmostDone setErrno at hd
      split at hd <;> cases hd
    | bail q => trivial
    | error q => trivial
  case sHeaderValueLws =>
    have hvalue : p.state.kind = .value := by rw [hs]; rfl
    refine .ite ?_ (stepHeaderFieldStart_lineTurn ch (.inl hvalue) hb rfl)
    exact .aside (by simp) (.inr ⟨by simp [hvalue],hsame _ rfl rfl,.inl hvalue.symm⟩)

theorem stepState_lineTurn (p : HttpParser) (ch : Byte) : (stepState p ch).LineTurns p := by
  cases hk : p.state.kind with
  | between =>
    cases hs : p.state <;> first | (rw [hs] at hk; exact absurd hk (by decide)) | skip
    · unfold stepState
      rw [hs]
      exact .ite (.aside (by simp) (.inl hk)) trivial
    · unfold stepState
      rw [hs]
      exact stepStartReq_lineTurn hs ch
  | name => exact stepState_inHeader (.inl hk) ch
  | value => exact stepState_inHeader (.inr (.inl hk)) ch
  | text => exact stepState_inHeader (.inr (.inr hk)) ch
  | other =>
    cases ha : p.state.after with
    | false => exact stepState_unlined hk ha ch
    | true => exact (stepState_leaves ha ch).turns hk (by simp [HttpParser.behind,ha])

theorem LineTurn.of_nread {p q : HttpParser} {acts : List Act} {n : ℕ}
    (h : LineTurn { p with nread := n } acts q) : LineTurn p acts q := by
  cases h with
  | aside ha h => exact .aside ha h
  | begins hk hb => exact .begins hk hb
  | nameStart hk hb hq hs => exact .nameStart hk hb hq hs
  | nameEnd hk hq hs hf => exact .nameEnd hk hq hs hf
  | valueStart hk hq hs => exact .valueStart hk hq hs
  | valueEmpty hk hq hs => exact .valueEmpty hk hq hs
  | valueEnd hk hq hs => exact .valueEnd hk hq hs
  | headEnd hk hb ha hq => exact .headEnd hk hb ha hq

theorem step_lineTurn (p : HttpParser) (ch : Byte) : (step p ch).LineTurns p := by
  unfold step
  split
  · refine .ite trivial ?_
    have hturn := stepState_lineTurn { p with nread := p.nread + 1 } ch
    cases hs : stepState { p with nread := p.nread + 1 } ch with
    | next acts q =>
      rw [hs] at hturn
      exact LineTurn.of_nread hturn
    | stop acts q =>
      rw [hs] at hturn
      exact hturn
    | bail q => trivial
    | error q => trivial
  · exact stepState_lineTurn p ch

/-! ### The lines, read off the bytes -/

/-- What the bytes of a message show of its head: whether the last line has a value, and how many
lines have one. -/
structure HeadScan where
  parser : HttpParser := {}
  valued : Bool := false
  lines : ℕ := 0
  deriving DecidableEq, Repr

/-- A message, a name or a value begins. The names and values of a trailer are not those of the
head. -/
def HeadScan.act (s : HeadScan) : Act → HeadScan
  | .notify .messageBegin _ _ => { s with valued := false, lines := 0 }
  | .mark .headerField => if s.parser.flags.trailing then s else { s with valued := false }
  | .mark .headerValue =>
    if s.parser.flags.trailing || s.valued then s
    else { s with valued := true, lines := s.lines + 1 }
  | _ => s

def HeadScan.next (s : HeadScan) (ch : Byte) : HeadScan :=
  match step s.parser ch with
  | .next acts q | .stop acts q => { acts.foldl HeadScan.act s with parser := q }
  | .bail q | .error q => { s with parser := q }

/-- The scan of all the bytes a client has been sent. -/
def headScan (text : Bytes) : HeadScan := text.foldl HeadScan.next {}

/-- The bytes are in a trailer, behind a head whose last line has a value, and which has not as
many lines with a value as there may be headers. -/
def HeadScan.opensTrailer (s : HeadScan) : Bool :=
  s.parser.flags.trailing && s.valued && s.lines < LIMIT_REQUEST_FIELDS

theorem headScan_snoc (text : Bytes) (ch : Byte) :
    headScan (text ++ [ch]) = (headScan text).next ch := by
  simp [headScan]

theorem HeadScan.next_of_step {s : HeadScan} {ch : Byte} {acts : List Act} {q : HttpParser}
    (h : step s.parser ch = .next acts q) :
    s.next ch = { acts.foldl HeadScan.act s with parser := q } := by
  simp only [HeadScan.next,h]

theorem HeadScan.foldl_aside {acts : List Act} (h : ∀ a ∈ acts, a.isAside) (s : HeadScan) :
    acts.foldl HeadScan.act s = s := by
  induction acts generalizing s with
  | nil => rfl
  | cons a as ih =>
    obtain ⟨ha,has⟩ := List.forall_mem_cons.mp h
    rw [List.foldl_cons,ih has]
    cases a with
    | mark k => cases k <;> first | rfl | cases ha
    | data k incl adv p => rfl
    | notify n adv p => cases n <;> first | rfl | cases ha

/-! ### What a request has of the lines -/

/-- `header_field_cb` runs `add_header`. -/
def Request.addsHeader (req : Request) : Bool :=
  req.lastHeaderElement ≠ .FIELD && req.numHeaders < LIMIT_REQUEST_FIELDS

/-- What the assertion of `add_header` asks for. -/
def Request.paired (req : Request) : Bool := req.field.isSome && req.value.isSome

theorem headerFieldCb_eq_none {req : Request} {buf : Bytes} :
    headerFieldCb buf req = none ↔ req.addsHeader ∧ ¬req.paired := by
  unfold headerFieldCb addHeader Request.addsHeader Request.paired
  by_cases h1 : req.lastHeaderElement = .FIELD
  · simp [h1]
  · by_cases h2 : req.numHeaders < LIMIT_REQUEST_FIELDS
    · cases req.field <;> cases req.value <;> simp [h1,h2,Nat.not_le.mpr h2]
    · simp [h1,h2,Nat.not_lt.mp h2]

/-- In the head: `valued` and `lines` are those of the scan. -/
structure Request.InHead (r : Request) (k : LineKind) (valued : Bool) (lines : ℕ) : Prop where
  count : k ≠ .text → r.numHeaders + (if r.lastHeaderElement = .VALUE then 1 else 0) = lines
  text : k = .text → valued ∧ r.numHeaders + 1 = lines
  name : k = .name → valued = false
  last : k = .value ∨ k = .other → (r.lastHeaderElement = .VALUE ↔ valued)
  paired : r.lastHeaderElement = .VALUE → r.paired
  bare : r.lastHeaderElement = .FIELD → r.value = none
  named : k = .value ∨ k = .text → r.field.isSome

/-- How a request stands to the scan of the bytes that made it. -/
inductive Request.Follows (r : Request) (k : LineKind) (valued : Bool) (lines : ℕ) : Bool → Prop
  | between {b} : k = .between → r.Follows k valued lines b
  | head : r.InHead k valued lines → r.Follows k valued lines false
  /-- `headers_complete_cb` has taken the last pair. -/
  | taken : k = .other ∨ k = .name → r.numHeaders = lines → (r.lastHeaderElement = .VALUE ↔ valued) →
      r.paired = false → r.Follows k valued lines true
  /-- A name of the trailer has come. -/
  | trailer : ¬(valued ∧ lines < LIMIT_REQUEST_FIELDS) → (r.lastHeaderElement = .VALUE → r.paired) →
      (k = .value ∨ k = .text → r.field.isSome) → r.Follows k valued lines true

/-- The fields of a request that `Follows` reads. -/
def Request.line (r : Request) : ℕ × FieldType × Option Bytes × Option Bytes :=
  (r.numHeaders,r.lastHeaderElement,r.field,r.value)

section Follows
variable {r s : Request} {k j : LineKind} {v b : Bool} {n : ℕ} {buf : Bytes}

theorem Request.Follows.of_line (h : r.Follows k v n b) (hl : s.line = r.line) :
    s.Follows k v n b := by
  obtain ⟨h1,h2,h3,h4⟩ : s.numHeaders = r.numHeaders ∧ s.lastHeaderElement = r.lastHeaderElement ∧
      s.field = r.field ∧ s.value = r.value := by simpa [Request.line] using hl
  have hp : s.paired = r.paired := by simp [Request.paired,h3,h4]
  cases h with
  | between hk => exact .between hk
  | head h =>
    refine .head ⟨?_,?_,h.name,?_,?_,?_,?_⟩
    · rw [h1,h2]; exact h.count
    · rw [h1]; exact h.text
    · rw [h2]; exact h.last
    · rw [h2,hp]; exact h.paired
    · rw [h2,h4]; exact h.bare
    · rw [h3]; exact h.named
  | taken hk hn hv hp' => exact .taken hk (h1.trans hn) (by rw [h2]; exact hv) (hp.trans hp')
  | trailer hno hp' hf => exact .trailer hno (by rw [h2,hp]; exact hp') (by rw [h3]; exact hf)

theorem Request.Follows.leave (h : r.Follows .value v n b) : r.Follows .other v n b := by
  cases h with
  | between hk => cases hk
  | head h =>
    exact .head ⟨fun _ => h.count (by simp),nofun,nofun,fun _ => h.last (.inl rfl),h.paired,h.bare,nofun⟩
  | taken hk hn hv hp => exact .taken (.inl rfl) hn hv hp
  | trailer hno hp hf => exact .trailer hno hp nofun

theorem Request.Follows.nameStart (hk : k = .value ∨ k = .other) (h : r.Follows k v n b) :
    r.Follows .name (b && v) n b := by
  cases h with
  | between hb => rcases hk with rfl | rfl <;> cases hb
  | head h =>
    have hc : k ≠ .text := by rcases hk with rfl | rfl <;> simp
    exact .head ⟨fun _ => h.count hc,nofun,fun _ => rfl,nofun,h.paired,h.bare,nofun⟩
  | taken hk' hn hv hp => exact .taken (.inr rfl) hn hv hp
  | trailer hno hp hf => exact .trailer hno hp nofun

/-- The call of `header_field_cb` for a name: `add_header` fails on its assertion for the first
name of a trailer. -/
theorem Request.Follows.name_call (h : r.Follows .name v n b) :
    r.addsHeader ∧ ¬r.paired ↔ (b && v && n < LIMIT_REQUEST_FIELDS) := by
  cases h with
  | between hk => cases hk
  | head h =>
    simp only [Bool.false_and,Bool.false_eq_true,iff_false,not_and,not_not]
    intro hadd
    apply h.paired
    cases hl : r.lastHeaderElement with
    | VALUE => rfl
    | FIELD => simp [Request.addsHeader,hl] at hadd
  | taken hk hn hv hp =>
    cases hl : r.lastHeaderElement <;> simp [Request.addsHeader,hl,hp,hn] at hv ⊢ <;> simp [hv]
  | trailer hno hp hf =>
    have hadd : ¬(r.addsHeader ∧ ¬r.paired) := by
      rintro ⟨hadd,hnp⟩
      refine hnp (hp ?_)
      cases hl : r.lastHeaderElement with
      | VALUE => rfl
      | FIELD => simp [Request.addsHeader,hl] at hadd
    rw [iff_false_left hadd]
    simpa using hno

/-- A piece of a name is stored. -/
theorem Request.Follows.name_stored (hj : j = .name ∨ j = .value ∨ j = .other)
    (h : r.Follows .name v n b) (hs : headerFieldCb buf r = some (true,s)) : s.Follows j v n b := by
  have hcall := h.name_call
  have hfit : ¬(r.addsHeader ∧ ¬r.paired) := fun hno => by
    rw [headerFieldCb_eq_none.mpr hno] at hs
    cases hs
  -- what `add_header` leaves of the request, when it runs
  obtain ⟨r',hstore,hn,hvalue⟩ : ∃ r', storeField r' buf = (true,s) ∧
      r'.numHeaders = r.numHeaders + (if r.lastHeaderElement = .VALUE then 1 else 0) ∧
      ((r.lastHeaderElement = .FIELD → r.value = none) → r'.value = none) := by
    obtain ⟨hl,hst⟩ | ⟨hl,-,r',hadd,hst⟩ := headerFieldCb_true.mp hs
    · exact ⟨r,hst,by simp [hl],fun hb => hb hl⟩
    · have hv : r.lastHeaderElement = .VALUE := by
        cases hl' : r.lastHeaderElement with
        | VALUE => rfl
        | FIELD => exact absurd hl' hl
      refine ⟨r',hst,?_,fun _ => ?_⟩
      all_goals
        unfold addHeader at hadd
        split at hadd
        · cases hadd
          simp [hv]
        · cases hadd
  obtain ⟨-,-,rfl⟩ := storeField_true.mp hstore
  cases h with
  | between hk => cases hk
  | head h =>
    refine .head ⟨fun _ => ?_,?_,fun _ => h.name rfl,fun _ => ?_,nofun,fun _ => hvalue h.bare,fun _ => rfl⟩
    · simpa [hn] using h.count (by simp)
    · rintro rfl
      simp at hj
    · simp [h.name rfl]
  | taken hk hn' hv hp =>
    refine .trailer (fun hno => ?_) nofun fun _ => rfl
    exact hfit (hcall.mpr (by simpa using hno))
  | trailer hno hp hf => exact .trailer hno nofun fun _ => rfl

theorem Request.Follows.valueStart (h : r.Follows .value v n b) :
    r.Follows .text (if b || v then v else true) (if b || v then n else n + 1) b := by
  cases h with
  | between hk => cases hk
  | head h =>
    have hcount := h.count (by simp)
    have hlast := h.last (.inl rfl)
    refine .head ⟨fun hk => absurd rfl hk,fun _ => ?_,nofun,by simp,h.paired,h.bare,fun _ => h.named (.inl rfl)⟩
    cases v with
    | true =>
      rw [if_pos (hlast.mpr rfl)] at hcount
      simpa using hcount
    | false =>
      rw [if_neg (by simpa using hlast)] at hcount
      simpa using hcount
  | taken hk hn hv hp => simp at hk
  | trailer hno hp hf => exact .trailer hno hp fun _ => hf (.inl rfl)

theorem Request.Follows.value_stored (hj : j = .text ∨ j = .value ∨ j = .other)
    (h : r.Follows .text v n b) (hs : headerValueCb buf r = some (true,s)) : s.Follows j v n b := by
  obtain ⟨-,rfl⟩ := headerValueCb_true.mp hs
  cases h with
  | between hk => cases hk
  | head h =>
    obtain ⟨hv,hn⟩ := h.text rfl
    have hfield := h.named (.inr rfl)
    refine .head ⟨fun _ => by simpa using hn,fun _ => ⟨hv,hn⟩,?_,fun _ => by simp [hv],
      fun _ => by simp [Request.paired,hfield],nofun,fun _ => hfield⟩
    rintro rfl
    simp at hj
  | taken hk hn hv hp => simp at hk
  | trailer hno hp hf =>
    have hfield := hf (.inr rfl)
    exact .trailer hno (fun _ => by simp [Request.paired,hfield]) fun _ => hfield

theorem lastHeader_unpaired (r : Request) : (lastHeader r).paired = false := by
  unfold lastHeader addHeader Request.paired
  cases hf : r.field <;> cases hv : r.value <;> simp [hf,hv]

/-- `headers_complete_cb` takes the last pair. -/
theorem Request.Follows.head_end {g : Globals} {p : HttpParser} (hk : k = .value ∨ k = .other)
    (h : r.Follows k v n false) (hs : headersComplete g p r = (true,s)) : s.Follows .other v n true := by
  cases h with
  | between hb => rcases hk with rfl | rfl <;> cases hb
  | head h =>
    unfold headersComplete Request.bad at hs
    split at hs
    · cases hs
    obtain ⟨-,rfl⟩ := Prod.mk.inj hs
    have hcount := h.count (by rcases hk with rfl | rfl <;> simp)
    have hno := lastHeader_unpaired { r with environ := requestLineEnv g p r, path := none }
    have hline : (lastHeader { r with environ := requestLineEnv g p r, path := none }).numHeaders = n ∧
        (lastHeader { r with environ := requestLineEnv g p r, path := none }).lastHeaderElement =
          r.lastHeaderElement := by
      rw [← hcount]
      cases hl : r.lastHeaderElement with
      | VALUE =>
        have hp := h.paired hl
        unfold Request.paired at hp
        cases hf : r.field <;> cases hv : r.value <;> simp [hf,hv] at hp
        simp [lastHeader,addHeader]
      | FIELD => cases hf : r.field <;> simp [lastHeader,addHeader,h.bare hl]
    refine .taken (.inl rfl) hline.1 ?_ ?_
    · simp only [hline.2]
      exact h.last hk
    · simpa [Request.paired] using hno

end Follows

/-! ### The record -/

/-- A call of `header_field_cb`: the request it works on, and the bytes the client has been sent by
then. -/
structure FieldCall where
  req : Request
  text : Bytes
  deriving DecidableEq, Repr

/-- A client with the bytes it has been sent and the calls of `header_field_cb` so far. -/
structure Recorded where
  client : Client
  text : Bytes := []
  calls : List FieldCall := []
  deriving DecidableEq, Repr

def Recorded.see (ch : Byte) (w : Recorded) : Recorded := { w with text := w.text ++ [ch] }

/-- The `settings` with the record. -/
def recording (g : Globals) : Settings Recorded where
  onNotify n p w :=
    let r := (settings g).onNotify n p w.client
    (r.1,{ w with client := r.2 })
  onData k p buf w :=
    let r := (settings g).onData k p buf w.client
    (r.1,match k with
      | .headerField => { w with
          client := r.2
          calls := w.calls ++ w.client.currentReq.toList.map fun req => ⟨req,w.text⟩ }
      | _ => { w with client := r.2 })

theorem recording_over (g : Globals) : (recording g).Over (settings g) Recorded.client where
  notify _ _ _ := rfl
  data k _ _ _ := by cases k <;> rfl

/-- A read, up to its error handling. -/
def Recorded.read (g : Globals) (w : Recorded) (data : Bytes) : Recorded :=
  let r := seeExecute Recorded.see (recording g) w.client.httpParser
    { w with client := w.client.entering } data
  { r.2.1 with client := { r.2.1.client with httpParser := r.1 } }

theorem Recorded.read_client (g : Globals) (w : Recorded) (data : Bytes) :
    (w.read g data).client = (executeParse g w.client data).1 := by
  have h := seeExecute_over (recording_over g) Recorded.see (fun _ _ => rfl)
    w.client.httpParser { w with client := w.client.entering } data
  unfold executeParse Recorded.read
  simp only [show { w.client with complete := false } = w.client.entering from rfl,h]

/-- Reads of pieces, as long as the parser takes all the bytes. -/
def Recorded.reads (g : Globals) : Recorded → List Bytes → Recorded
  | w, [] => w
  | w, data :: rest =>
    if (executeParse g w.client data).2 = data.length ∧
        (executeParse g w.client data).1.httpParser.httpErrno = .OK then
      (w.read g data).reads g rest
    else w.read g data

/-- What is shown of all the calls: `add_header` fails on its assertion where the bytes open a
trailer. -/
def Recorded.Sound (w : Recorded) : Prop := ∀ call ∈ w.calls,
  call.req.addsHeader ∧ ¬call.req.paired ↔ (headScan call.text).opensTrailer

/-- The request, if there is one, follows. -/
def Recorded.Follows (w : Recorded) (k : LineKind) (v : Bool) (n : ℕ) (b : Bool) : Prop :=
  ∀ req, w.client.currentReq = some req → req.Follows k v n b

section Callbacks

variable {g : Globals} {w e : Recorded} {p : HttpParser} {buf : Bytes} {k j : LineKind} {v b : Bool}
  {n : ℕ}

theorem onCurrentReq_mk {c d : Client} {f : Request → Option (Bool × Request)}
    (h : onCurrentReq c f = (true,d)) :
    ∃ r s, c.currentReq = some r ∧ f r = some (true,s) ∧ d.currentReq = some s := by
  obtain ⟨r,s,hr,hs,rfl⟩ := onCurrentReq_true.mp h
  exact ⟨r,s,hr,hs,rfl⟩

theorem Recorded.Follows.of_callback {f : Request → Option (Bool × Request)} {d : Client}
    (h : w.Follows k v n b) (hc : onCurrentReq w.client f = (true,d)) {v' b' : Bool} {n' : ℕ}
    (hf : ∀ r s, r.Follows k v n b → f r = some (true,s) → s.Follows j v' n' b') :
    ∀ req, d.currentReq = some req → req.Follows j v' n' b' := by
  obtain ⟨r,s,hr,hs,hd⟩ := onCurrentReq_mk hc
  intro req hreq
  cases hd.symm.trans hreq
  exact hf r s (h r hr) hs

theorem recording_text (g : Globals) (m : Mark) (p : HttpParser) (buf : Bytes) (w : Recorded) :
    ((recording g).onData m p buf w).2.text = w.text := by
  cases m <;> rfl

theorem recording_field (g : Globals) (p : HttpParser) (buf : Bytes) (hs : w.Sound) (hf : w.Follows .name v n b)
    (ho : (headScan w.text).opensTrailer = (b && v && n < LIMIT_REQUEST_FIELDS)) :
    ((recording g).onData .headerField p buf w).2.Sound := by
  intro call hcall
  rcases List.mem_append.mp hcall with hcall | hcall
  · exact hs call hcall
  · obtain ⟨req,hreq,rfl⟩ := List.mem_map.mp hcall
    rw [ho]
    exact (hf req (Option.mem_toList.mp hreq)).name_call

theorem recording_field_true (hf : w.Follows .name v n b) (hj : j = .name ∨ j = .value ∨ j = .other)
    (h : (recording g).onData .headerField p buf w = (true,e)) : e.Follows j v n b := by
  obtain ⟨hok,rfl⟩ := Prod.mk.inj h
  exact hf.of_callback (Prod.ext hok rfl) fun r s hr hs => hr.name_stored hj hs

theorem recording_value_true (hf : w.Follows .text v n b) (hj : j = .text ∨ j = .value ∨ j = .other)
    (h : (recording g).onData .headerValue p buf w = (true,e)) : e.Follows j v n b := by
  obtain ⟨hok,rfl⟩ := Prod.mk.inj h
  exact hf.of_callback (Prod.ext hok rfl) fun r s hr hs => hr.value_stored hj hs

theorem recording_head_end {q : HttpParser} (hk : k = .value ∨ k = .other) (hf : w.Follows k v n false)
    (h : (recording g).onNotify .headersComplete q w = (true,e)) : e.Follows .other v n true := by
  obtain ⟨hok,rfl⟩ := Prod.mk.inj h
  have hf' : Recorded.Follows { w with client := { w.client with
      keepAlive := httpShouldKeepAlive q } } k v n false := hf
  exact hf'.of_callback (f := fun req => some (headersComplete g q req)) (Prod.ext hok rfl)
    fun r s hr hs => hr.head_end hk (Option.some.inj hs)

/-- Acts aside leave the lines as they are. -/
theorem Act.isAside.keeps {a : Act} (ha : a.isAside) (text : Bytes) :
    a.Keeps (recording g) (fun w => w.Sound ∧ w.text = text ∧ w.Follows k v n b) Recorded.Sound := by
  have hdata : ∀ (m : Mark) (p : HttpParser) (buf : Bytes) (d : Recorded), m = .url ∨ m = .body →
      d.Follows k v n b → ∀ e, (recording g).onData m p buf d = (true,e) → e.Follows k v n b := by
    intro m p buf d hm hf e he
    obtain ⟨hok,rfl⟩ := Prod.mk.inj he
    rcases hm with rfl | rfl
    · refine hf.of_callback (f := urlCb buf) (Prod.ext hok rfl) fun r s hr hs => ?_
      obtain ⟨-,rfl⟩ := urlCb_true.mp hs
      exact hr.of_line rfl
    · refine hf.of_callback (f := bodyCb g p buf) (Prod.ext hok rfl) fun r s hr hs => ?_
      have hs' := (writeBody_some (bodyCb_true.mp hs).2.2).2
      exact hr.of_line (by rw [hs']; rfl)
  cases a with
  | mark m => trivial
  | notify c adv p =>
    cases c with
    | messageComplete =>
      rintro d ⟨hs,ht,hf⟩
      exact ⟨fun e he => by cases he; exact ⟨hs,ht,hf⟩,fun e he => by cases he⟩
    | messageBegin => cases ha
    | headersComplete => cases ha
  | data m incl adv p =>
    rintro buf d ⟨hs,ht,hf⟩
    have hm : m = .url ∨ m = .body := by cases m <;> first | exact .inl rfl | exact .inr rfl | cases ha
    have hs' : ((recording g).onData m p buf d).2.Sound := by rcases hm with rfl | rfl <;> exact hs
    have ht' : ((recording g).onData m p buf d).2.text = text := (recording_text g m p buf d).trans ht
    constructor
    · intro e he
      rw [he] at hs' ht'
      exact ⟨hs',ht',hdata m p buf d hm hf e he⟩
    · intro e he
      rw [he] at hs'
      exact hs'

end Callbacks

/-! ### Runs -/

/-- What holds between two bytes. -/
structure Recorded.Fine (w : Recorded) (p : HttpParser) : Prop where
  sound : w.Sound
  parser : (headScan w.text).parser = p
  follows : w.Follows p.state.kind (headScan w.text).valued (headScan w.text).lines p.behind

theorem kind_value_behind {p : HttpParser} (h : p.state.kind = .value ∨ p.state.kind = .text ∨
    p.state.kind = .name) : p.behind = p.flags.trailing := by
  have ha : p.state.after = false := by
    generalize p.state = s at h
    cases s <;> first | rfl | simp [State.kind] at h
  simp [HttpParser.behind,ha]

theorem mark_of_kind {s : State} : (s.kind = .name ↔ s.mark = some .headerField) ∧
    (s.kind = .text ↔ s.mark = some .headerValue) := by
  cases s <;> simp [State.kind,State.mark]

theorem HeadScan.act_name (s : HeadScan) : (s.act (.mark .headerField)).lines = s.lines ∧
    (s.act (.mark .headerField)).valued = (s.parser.flags.trailing && s.valued) := by
  simp only [HeadScan.act]
  split
  next h => simp [h]
  next h => simp [h]

theorem HeadScan.act_value (s : HeadScan) :
    (s.act (.mark .headerValue)).lines =
      (if s.parser.flags.trailing || s.valued then s.lines else s.lines + 1) ∧
    (s.act (.mark .headerValue)).valued =
      (if s.parser.flags.trailing || s.valued then s.valued else true) := by
  simp only [HeadScan.act]
  split <;> exact ⟨rfl,rfl⟩

theorem Recorded.Fine.of_scan {w : Recorded} {q : HttpParser} {s : HeadScan} (hs : w.Sound)
    (hscan : headScan w.text = { s with parser := q })
    (hf : w.Follows q.state.kind s.valued s.lines q.behind) : w.Fine q :=
  ⟨hs,by rw [hscan],by rw [hscan]; exact hf⟩

/-- The call of `header_value_cb` that ends a value. -/
theorem fine_value {g : Globals} {p q r : HttpParser} {ch : Byte} {w : Recorded} {s : HeadScan}
    {kb : Mark × Bytes} {adv : ℕ} (hs : w.Sound) (hf : w.Follows .text s.valued s.lines p.behind)
    (hscan : headScan w.text = { s with parser := q })
    (hq : q.state.kind = .text ∨ q.state.kind = .value ∨ q.state.kind = .other)
    (hb : q.behind = p.behind) :
    (∀ m', runActs (recording g) ch [.data .headerValue false adv r] ⟨w,some kb⟩ = .ok m' →
        m'.data.Fine q) ∧
      ∀ x, runActs (recording g) ch [.data .headerValue false adv r] ⟨w,some kb⟩ = .error x →
        x.2.1.Sound := by
  simp only [runActs,Bool.false_eq_true,if_false]
  cases hr : (recording g).onData .headerValue r kb.2 w with
  | mk c e =>
    have hsd : e.Sound ∧ e.text = w.text := by
      obtain ⟨-,rfl⟩ := Prod.mk.inj hr
      exact ⟨hs,rfl⟩
    cases c with
    | true =>
      refine ⟨fun m' hm' => ?_,fun x hx => by cases hx⟩
      cases hm'
      refine .of_scan hsd.1 (hsd.2 ▸ hscan) ?_
      rw [hb]
      exact recording_value_true hf hq hr
    | false =>
      refine ⟨(fun m' hm' => by cases hm'),fun x hx => ?_⟩
      cases hx
      exact hsd.1

/-- The call of `header_field_cb` that ends a name. -/
theorem fine_name {g : Globals} {p q : HttpParser} {ch : Byte} {w : Recorded} {s : HeadScan}
    {kb : Mark × Bytes} (hs : w.Sound) (hf : w.Follows .name s.valued s.lines p.behind)
    (hscan : headScan w.text = { s with parser := q })
    (hopen : (headScan w.text).opensTrailer = (p.behind && s.valued && s.lines < LIMIT_REQUEST_FIELDS))
    (hq : q.state.kind = .value ∨ q.state.kind = .other) (hb : q.behind = p.behind) :
    (∀ m', runActs (recording g) ch [callbackData .headerField q] ⟨w,some kb⟩ = .ok m' →
        m'.data.Fine q) ∧
      ∀ x, runActs (recording g) ch [callbackData .headerField q] ⟨w,some kb⟩ = .error x →
        x.2.1.Sound := by
  have hsd := recording_field g q kb.2 hs hf hopen
  have ht := recording_text g .headerField q kb.2 w
  simp only [runActs,Bool.false_eq_true,if_false]
  cases hr : (recording g).onData .headerField q kb.2 w with
  | mk c e =>
    rw [hr] at hsd ht
    cases c with
    | true =>
      refine ⟨fun m' hm' => ?_,fun x hx => by cases hx⟩
      cases hm'
      refine .of_scan hsd (ht ▸ hscan) ?_
      rw [hb]
      exact recording_field_true hf (.inr hq) hr
    | false =>
      refine ⟨(fun m' hm' => by cases hm'),fun x hx => ?_⟩
      cases hx
      exact hsd

/-- Acts that leave the lines of a request as they are. -/
theorem fine_aside {g : Globals} {q : HttpParser} {ch : Byte} {acts : List Act} {w : Recorded}
    {mk : Option (Mark × Bytes)} {s : HeadScan} {k : LineKind} {b : Bool} (ha : ∀ a ∈ acts, a.isAside)
    (hs : w.Sound) (hf : w.Follows k s.valued s.lines b) (hscan : headScan w.text = { s with parser := q })
    (hnext : ∀ req : Request, req.Follows k s.valued s.lines b →
      req.Follows q.state.kind s.valued s.lines q.behind) :
    (∀ m', runActs (recording g) ch acts ⟨w,mk⟩ = .ok m' → m'.data.Fine q) ∧
      ∀ x, runActs (recording g) ch acts ⟨w,mk⟩ = .error x → x.2.1.Sound := by
  obtain ⟨hok,hfail⟩ := Act.Keeps.run ch (m := ⟨w,mk⟩) (fun a haa =>
    Act.isAside.keeps (g := g) (ha a haa) w.text) ⟨hs,rfl,hf⟩
  refine ⟨fun m' hm' => ?_,hfail⟩
  obtain ⟨hsd,ht,hf'⟩ := hok m' hm'
  exact .of_scan hsd (ht ▸ hscan) fun req hreq => hnext req (hf' req hreq)

/-- `headers_complete_cb`, and the acts behind it. -/
theorem fine_headEnd {g : Globals} {q r : HttpParser} {ch : Byte} {acts : List Act} {w : Recorded}
    {mk : Option (Mark × Bytes)} {s : HeadScan} {k : LineKind} {adv : ℕ} (ha : ∀ a ∈ acts, a.isAside)
    (hk : k = .value ∨ k = .other) (hs : w.Sound) (hf : w.Follows k s.valued s.lines false)
    (hscan : headScan w.text = { s with parser := q })
    (hq : q.state.kind = .between ∨ q.state.kind = .other ∧ q.behind) :
    (∀ m', runActs (recording g) ch (.notify .headersComplete adv r :: acts) ⟨w,mk⟩ = .ok m' →
        m'.data.Fine q) ∧
      ∀ x, runActs (recording g) ch (.notify .headersComplete adv r :: acts) ⟨w,mk⟩ = .error x →
        x.2.1.Sound := by
  simp only [runActs]
  cases hr : (recording g).onNotify .headersComplete r w with
  | mk c e =>
    have hsd : e.Sound ∧ e.text = w.text := by
      obtain ⟨-,rfl⟩ := Prod.mk.inj hr
      exact ⟨hs,rfl⟩
    cases c with
    | false =>
      refine ⟨(fun m' hm' => by cases hm'),fun x hx => ?_⟩
      cases hx
      exact hsd.1
    | true =>
      refine fine_aside ha hsd.1 (recording_head_end hk hf hr) (hsd.2 ▸ hscan) fun req hreq => ?_
      rcases hq with hq | ⟨hq,hqb⟩
      · exact .between hq
      · rw [hq,hqb]
        exact hreq

/-- One byte. -/
theorem fine_step {g : Globals} {p q : HttpParser} {ch : Byte} {acts : List Act} {w : Recorded}
    {mk : Option (Mark × Bytes)} (hm : Marked.Fits ⟨w,mk⟩ p.state) (h : w.Fine p)
    (hs : step p ch = .next acts q) :
    (∀ m', runActs (recording g) ch acts ⟨w.see ch,mk⟩ = .ok m' → m'.data.Fine q) ∧
      ∀ r, runActs (recording g) ch acts ⟨w.see ch,mk⟩ = .error r → r.2.1.Sound := by
  obtain ⟨hsound,hparser,hfollows⟩ := h
  have hturn : LineTurn p acts q := by
    have ht := step_lineTurn p ch
    rwa [hs] at ht
  have hscan : headScan (w.see ch).text =
      { acts.foldl HeadScan.act (headScan w.text) with parser := q } := by
    rw [Recorded.see,headScan_snoc,HeadScan.next_of_step (hparser ▸ hs)]
  have hfollows' : (w.see ch).Follows p.state.kind (headScan w.text).valued (headScan w.text).lines
    p.behind := hfollows
  have hsound' : (w.see ch).Sound := hsound
  generalize w.see ch = w' at hscan hfollows' hsound'
  generalize headScan w.text = s at hparser hscan hfollows'
  cases hturn with
  | aside ha hq =>
    rw [HeadScan.foldl_aside ha] at hscan
    refine fine_aside ha hsound' hfollows' hscan fun req hreq => ?_
    rcases hq with hq | ⟨-,hb,hk | ⟨hv,ho⟩⟩
    · exact .between hq
    · rw [hk,hb]
      exact hreq
    · rw [ho,hb]
      exact (hv ▸ hreq).leave
  | begins hk hb =>
    refine ⟨fun m' hm' => ?_,fun r hr => by cases hr⟩
    cases hm'
    refine .of_scan hsound' hscan fun req hreq => ?_
    cases hreq
    rw [hk,hb]
    exact .head ⟨fun _ => rfl,nofun,nofun,fun _ => by simp [HeadScan.act],nofun,fun _ => rfl,nofun⟩
  | nameStart hk ht hq hb =>
    refine ⟨fun m' hm' => ?_,fun r hr => by cases hr⟩
    cases hm'
    refine .of_scan hsound' hscan fun req hreq => ?_
    obtain ⟨hlines,hvalued⟩ := s.act_name
    rw [List.foldl_cons,List.foldl_nil,hlines,hvalued,hparser,hq,hb,← ht]
    exact (hfollows' req hreq).nameStart hk
  | nameEnd hk hq hb hf =>
    have hkb : p.behind = p.flags.trailing := kind_value_behind (.inr (.inr hk))
    cases mk with
    | none =>
      have hmark := mark_of_kind.1.mp hk
      simp [Marked.Fits,hmark] at hm
    | some kb =>
      rw [hk] at hfollows'
      have hopen : (headScan w'.text).opensTrailer = (p.behind && s.valued &&
          s.lines < LIMIT_REQUEST_FIELDS) := by
        rw [hscan,hkb,← hf]
        rfl
      exact fine_name hsound' hfollows' hscan hopen hq hb
  | valueStart hk hq hb =>
    refine ⟨fun m' hm' => ?_,fun r hr => by cases hr⟩
    cases hm'
    refine .of_scan hsound' hscan fun req hreq => ?_
    obtain ⟨hlines,hvalued⟩ := s.act_value
    rw [List.foldl_cons,List.foldl_nil,hlines,hvalued,hparser,hq,hb,← kind_value_behind (.inl hk)]
    exact (hk ▸ hfollows' req hreq).valueStart
  | valueEmpty hk hq hb =>
    obtain ⟨hlines,hvalued⟩ := s.act_value
    have hstart : w'.Follows .text (s.act (.mark .headerValue)).valued
        (s.act (.mark .headerValue)).lines p.behind := fun req hreq => by
      rw [hlines,hvalued,hparser,← kind_value_behind (.inl hk)]
      exact (hk ▸ hfollows' req hreq).valueStart
    obtain ⟨kb,hkb⟩ : ∃ kb, mk.or (some (.headerValue,[])) = some kb := by cases mk <;> exact ⟨_,rfl⟩
    simp only [runActs.eq_2,hkb]
    exact fine_value hsound' hstart hscan (.inr hq) hb
  | valueEnd hk hq hb =>
    cases mk with
    | none =>
      have hmark := mark_of_kind.2.mp hk
      simp [Marked.Fits,hmark] at hm
    | some kb => exact fine_value hsound' (hk ▸ hfollows') hscan (.inr (.inl hq)) hb
  | headEnd hk hb ha hq =>
    rw [hb] at hfollows'
    have hscan' : headScan w'.text = { s with parser := q } := by
      rw [hscan,List.foldl_cons,HeadScan.foldl_aside ha]
      rfl
    exact fine_headEnd ha hk hsound' hfollows' hscan' hq

/-- The callback for the bytes that are marked when a read ends. -/
theorem fine_data {g : Globals} {p : HttpParser} {k : Mark} {buf : Bytes} {w e : Recorded} {b : Bool}
    (hk : p.state.mark = some k) (h : w.Fine p) (hr : (recording g).onData k p buf w = (b,e)) :
    e.Sound ∧ (b = true → e.Fine p) := by
  obtain ⟨hsound,hparser,hfollows⟩ := h
  have ht : e.text = w.text := by
    have ht := recording_text g k p buf w
    rwa [hr] at ht
  have hopen : (headScan w.text).opensTrailer = (p.flags.trailing && (headScan w.text).valued &&
      (headScan w.text).lines < LIMIT_REQUEST_FIELDS) := by
    rw [← hparser]
    rfl
  generalize hs : headScan w.text = s at hparser hfollows hopen
  have hscan : headScan e.text = { s with parser := p } := by rw [ht,hs,← hparser]
  have haside : (Act.data k false 0 p).isAside → e.Sound ∧ (b = true → e.Fine p) := fun ha => by
    have hkeep := Act.isAside.keeps (g := g) ha w.text buf w ⟨hsound,rfl,hfollows⟩
    cases b with
    | true =>
      obtain ⟨hsd,-,hf⟩ := hkeep.1 e hr
      exact ⟨hsd,fun _ => .of_scan hsd hscan hf⟩
    | false => exact ⟨hkeep.2 e hr,nofun⟩
  cases k with
  | headerField =>
    have hname := mark_of_kind.1.mpr hk
    rw [hname] at hfollows
    have hsd := recording_field g p buf hsound hfollows
      (by rw [hs,hopen,kind_value_behind (.inr (.inr hname))])
    rw [hr] at hsd
    refine ⟨hsd,fun hb => .of_scan hsd hscan ?_⟩
    subst hb
    exact recording_field_true hfollows (.inl hname) hr
  | headerValue =>
    have htext := mark_of_kind.2.mpr hk
    rw [htext] at hfollows
    have hsd : e.Sound := by
      obtain ⟨-,rfl⟩ := Prod.mk.inj hr
      exact hsound
    refine ⟨hsd,fun hb => .of_scan hsd hscan ?_⟩
    subst hb
    exact recording_value_true hfollows (.inl htext) hr
  | url => exact haside rfl
  | body => exact haside rfl

/-- A byte that stops the parser. -/
theorem fine_stop {g : Globals} {p q : HttpParser} {ch : Byte} {acts : List Act} {w : Recorded}
    (mk : Option (Mark × Bytes)) (h : w.Fine p) (hs : step p ch = .stop acts q) :
    (∀ m', runActs (recording g) ch acts ⟨w.see ch,mk⟩ = .ok m' → m'.data.Fine q) ∧
      ∀ r, runActs (recording g) ch acts ⟨w.see ch,mk⟩ = .error r → r.2.1.Sound := by
  have hkind : q.state.kind = .between := by
    have ht := step_lineTurn p ch
    rwa [hs] at ht
  have hscan : (headScan (w.see ch).text).parser = q := by
    have hstep := hs
    rw [← h.parser] at hstep
    rw [Recorded.see,headScan_snoc]
    simp only [HeadScan.next,hstep]
  have hkeep : ∀ a ∈ acts, a.Keeps (recording g)
      (fun d => d.Sound ∧ d.text = (w.see ch).text) Recorded.Sound := by
    intro a ha
    cases a with
    | mark k => trivial
    | data k incl adv r => exact absurd ((step_stop hs).2.1 _ ha) id
    | notify n adv r =>
      rintro d ⟨hd,ht⟩
      refine ⟨fun e he => ?_,fun e he => ?_⟩
      · obtain ⟨-,rfl⟩ := Prod.mk.inj he
        exact ⟨hd,ht⟩
      · obtain ⟨-,rfl⟩ := Prod.mk.inj he
        exact hd
  obtain ⟨hok,hfail⟩ := Act.Keeps.run ch (m := ⟨w.see ch,mk⟩) hkeep ⟨h.sound,rfl⟩
  refine ⟨fun m' hm' => ?_,hfail⟩
  obtain ⟨hd,ht⟩ := hok m' hm'
  exact ⟨hd,by rw [ht,hscan],fun req _ => .between hkind⟩

/-- One read: what is recorded is as it should be, and so is the client for the next read. -/
theorem fine_loop {g : Globals} (data : Bytes) {p : HttpParser} {w : Recorded}
    {mk : Option (Mark × Bytes)} (pos : ℕ) (hm : Marked.Fits ⟨w,mk⟩ p.state) (h : w.Fine p) :
    (seeLoop Recorded.see (recording g) p ⟨w,mk⟩ pos data).2.1.Sound ∧
      ((seeLoop Recorded.see (recording g) p ⟨w,mk⟩ pos data).2.2 = ((pos + data.length : ℕ) : ℤ) →
        (seeLoop Recorded.see (recording g) p ⟨w,mk⟩ pos data).1.httpErrno = .OK →
        (seeLoop Recorded.see (recording g) p ⟨w,mk⟩ pos data).2.1.Fine
          (seeLoop Recorded.see (recording g) p ⟨w,mk⟩ pos data).1) := by
  induction data generalizing p w mk pos with
  | nil =>
    simp only [seeLoop,flushMark]
    cases mk with
    | none => exact ⟨h.sound,fun _ _ => h⟩
    | some kb =>
      simp only
      cases hr : (recording g).onData kb.1 p kb.2 w with
      | mk b e =>
        obtain ⟨hs,hok⟩ := fine_data hm h hr
        cases b with
        | true => exact ⟨hs,fun _ _ => hok rfl⟩
        | false =>
          refine ⟨hs,fun _ herr => ?_⟩
          cases hk : kb.1 <;> simp [hk,dataErrno] at herr
  | cons ch rest ih =>
    cases hs : step p ch with
    | error q =>
      simp only [seeLoop,hs,List.length_cons]
      exact ⟨h.sound,fun hpos => by omega⟩
    | bail q =>
      simp only [seeLoop,hs,List.length_cons]
      exact ⟨h.sound,fun hpos => by omega⟩
    | stop acts q =>
      obtain ⟨hok,hfail⟩ := fine_stop (g := g) mk h hs
      cases hr : runActs (recording g) ch acts ⟨w.see ch,mk⟩ with
      | ok m' =>
        simp only [seeLoop,hs,hr]
        exact ⟨(hok m' hr).sound,fun _ _ => hok m' hr⟩
      | error r =>
        simp only [seeLoop,hs,hr]
        exact ⟨hfail r hr,fun _ herr => absurd herr (runActs_errno hr)⟩
    | next acts q =>
      obtain ⟨hok,hfail⟩ := fine_step (g := g) hm h hs
      cases hr : runActs (recording g) ch acts ⟨w.see ch,mk⟩ with
      | ok m' =>
        have hfit : (m'.push ch).Fits q.state :=
          (step_turn hs).fits (m := ⟨w.see ch,mk⟩) (by exact hm) hr
        have hrest := ih (pos + 1) hfit (hok m' hr)
        rw [Nat.add_assoc,Nat.add_comm 1] at hrest
        simp only [seeLoop,hs,hr,List.length_cons]
        exact hrest
      | error r =>
        simp only [seeLoop,hs,hr]
        exact ⟨hfail r hr,fun _ herr => absurd herr (runActs_errno hr)⟩

theorem fine_read {g : Globals} {data : Bytes} {w : Recorded} (h : w.Fine w.client.httpParser) :
    (w.read g data).Sound ∧ ((executeParse g w.client data).2 = data.length →
      (executeParse g w.client data).1.httpParser.httpErrno = .OK →
        (w.read g data).Fine (w.read g data).client.httpParser) := by
  have hover := seeExecute_over (recording_over g) Recorded.see (fun _ _ => rfl)
    w.client.httpParser { w with client := w.client.entering } data
  have hexec : executeParse g w.client data = ((w.read g data).client,(seeExecute Recorded.see
      (recording g) w.client.httpParser { w with client := w.client.entering } data).2.2) := by
    refine Prod.ext (w.read_client g data).symm ?_
    unfold executeParse
    simp only [show { w.client with complete := false } = w.client.entering from rfl,hover]
  rw [hexec]
  have hw : Recorded.Fine { w with client := w.client.entering } w.client.httpParser :=
    ⟨h.sound,h.parser,h.follows⟩
  unfold Recorded.read seeExecute
  split
  · exact ⟨h.sound,fun _ herr => by contradiction⟩
  · split
    · split
      · exact ⟨h.sound,fun _ _ => ⟨hw.sound,hw.parser,hw.follows⟩⟩
      · exact ⟨h.sound,fun _ _ => ⟨hw.sound,hw.parser,hw.follows⟩⟩
      · exact ⟨h.sound,fun _ herr => by cases herr⟩
    · obtain ⟨hs,hok⟩ := fine_loop (g := g) data (p := w.client.httpParser) 0
        (entryMark_fits { w with client := w.client.entering } w.client.httpParser.state) hw
      rw [Nat.zero_add] at hok
      refine ⟨hs,fun hpos herr => ?_⟩
      obtain ⟨h1,h2,h3⟩ := hok hpos herr
      exact ⟨h1,h2,h3⟩

theorem sound_reads {g : Globals} {reads : List Bytes} {w : Recorded}
    (h : w.Fine w.client.httpParser) : (w.reads g reads).Sound := by
  induction reads generalizing w with
  | nil => exact h.sound
  | cons data rest ih =>
    obtain ⟨hs,hok⟩ := fine_read (g := g) h
    unfold Recorded.reads
    split
    next hgo => exact ih (hok hgo.1 hgo.2)
    next => exact hs

theorem sound_idle (g : Globals) (port : ℕ) (keepAlive : Bool) (reads : List Bytes) :
    (Recorded.reads g { client := idleClient port keepAlive } reads).Sound := by
  refine sound_reads ⟨?_,rfl,?_⟩
  · intro call hcall
    cases hcall
  · intro req hreq
    cases hreq

/-! ### The bytes of the record -/

def Recorded.Told (w : Recorded) (text : Bytes) : Prop :=
  w.text = text ∧ ∀ call ∈ w.calls, call.text <+: text

theorem recording_told {g : Globals} {text : Bytes} (k : Mark) (p : HttpParser) (buf : Bytes)
    {w : Recorded} (h : w.Told text) : ((recording g).onData k p buf w).2.Told text := by
  refine ⟨(recording_text g k p buf w).trans h.1,fun call hcall => ?_⟩
  cases k with
  | headerField =>
    rcases List.mem_append.mp hcall with hcall | hcall
    · exact h.2 call hcall
    · obtain ⟨req,-,rfl⟩ := List.mem_map.mp hcall
      rw [h.1]
  | headerValue => exact h.2 call hcall
  | url => exact h.2 call hcall
  | body => exact h.2 call hcall

theorem Recorded.Told.runActs {g : Globals} {text : Bytes} {w : Recorded} (h : w.Told text) (ch : Byte)
    (acts : List Act) (k : Option (Mark × Bytes)) :
    (actsData (runActs (recording g) ch acts ⟨w,k⟩)).Told text :=
  runActs_invariant (I := fun d => d.Told text) (fun _ _ _ hd => hd)
    (fun k p buf _ hd => recording_told k p buf hd) ch acts ⟨w,k⟩ h

theorem Recorded.Told.see {text : Bytes} {w : Recorded} (h : w.Told text) (ch : Byte) :
    (w.see ch).Told (text ++ [ch]) :=
  ⟨by rw [← h.1]; rfl,fun call hcall => (h.2 call hcall).trans (List.prefix_append _ _)⟩

/-- A read notes its bytes, all of them when the parser takes them. -/
theorem told_loop {g : Globals} (data : Bytes) {text : Bytes} {p : HttpParser} {w : Recorded}
    {k : Option (Mark × Bytes)} (pos : ℕ) (h : w.Told text) :
    ∃ n, (seeLoop Recorded.see (recording g) p ⟨w,k⟩ pos data).2.1.Told (text ++ data.take n) ∧
      ((seeLoop Recorded.see (recording g) p ⟨w,k⟩ pos data).2.2 = ((pos + data.length : ℕ) : ℤ) →
        (seeLoop Recorded.see (recording g) p ⟨w,k⟩ pos data).1.httpErrno = .OK →
        data.take n = data) := by
  induction data generalizing text p w k pos with
  | nil =>
    refine ⟨0,?_,fun _ _ => rfl⟩
    rw [List.take_nil,List.append_nil]
    exact flushMark_invariant (I := fun d => d.Told text)
      (fun k p buf _ hd => recording_told k p buf hd) p ⟨w,k⟩ h
  | cons ch rest ih =>
    have hsee := h.see ch
    cases hs : step p ch with
    | error q =>
      refine ⟨0,?_,fun hpos => ?_⟩
      · simpa only [seeLoop,hs,List.take_zero,List.append_nil] using h
      · simp only [seeLoop,hs,List.length_cons] at hpos
        omega
    | bail q =>
      refine ⟨0,?_,fun hpos => ?_⟩
      · simpa only [seeLoop,hs,List.take_zero,List.append_nil] using h
      · simp only [seeLoop,hs,List.length_cons] at hpos
        omega
    | stop acts q =>
      have hacts := hsee.runActs (g := g) ch acts k
      cases hr : runActs (recording g) ch acts ⟨w.see ch,k⟩ with
      | ok m' =>
        rw [hr] at hacts
        refine ⟨1,?_,fun hpos _ => ?_⟩
        · simp only [seeLoop,hs,hr,List.take_succ_cons,List.take_zero]
          exact hacts
        · simp only [seeLoop,hs,hr,List.length_cons,Nat.cast_inj] at hpos
          have hrest : rest = [] := List.eq_nil_of_length_eq_zero (by omega)
          simp [hrest]
      | error r =>
        rw [hr] at hacts
        refine ⟨1,?_,fun _ herr => absurd ?_ (runActs_errno hr)⟩
        · simp only [seeLoop,hs,hr,List.take_succ_cons,List.take_zero]
          exact hacts
        · simpa only [seeLoop,hs,hr] using herr
    | next acts q =>
      have hacts := hsee.runActs (g := g) ch acts k
      cases hr : runActs (recording g) ch acts ⟨w.see ch,k⟩ with
      | ok m' =>
        rw [hr] at hacts
        obtain ⟨n,hn,hall⟩ := ih (p := q) (w := m'.data) (k := (m'.push ch).mark) (pos + 1) hacts
        refine ⟨n + 1,?_,fun hpos herr => ?_⟩
        · simp only [seeLoop,hs,hr,List.take_succ_cons]
          rw [List.append_cons]
          exact hn
        · simp only [seeLoop,hs,hr,List.length_cons] at hpos herr
          rw [List.take_succ_cons,hall (by rw [Nat.add_assoc,Nat.add_comm 1]; exact hpos) herr]
      | error r =>
        rw [hr] at hacts
        refine ⟨1,?_,fun _ herr => absurd ?_ (runActs_errno hr)⟩
        · simp only [seeLoop,hs,hr,List.take_succ_cons,List.take_zero]
          exact hacts
        · simpa only [seeLoop,hs,hr] using herr

theorem told_read {g : Globals} {text : Bytes} {w : Recorded} (data : Bytes) (h : w.Told text) :
    ∃ n, (w.read g data).Told (text ++ data.take n) ∧ ((executeParse g w.client data).2 = data.length →
      (executeParse g w.client data).1.httpParser.httpErrno = .OK → data.take n = data) := by
  have hover := seeExecute_over (recording_over g) Recorded.see (fun _ _ => rfl)
    w.client.httpParser { w with client := w.client.entering } data
  have hexec : executeParse g w.client data = ((w.read g data).client,(seeExecute Recorded.see
      (recording g) w.client.httpParser { w with client := w.client.entering } data).2.2) := by
    refine Prod.ext (w.read_client g data).symm ?_
    unfold executeParse
    simp only [show { w.client with complete := false } = w.client.entering from rfl,hover]
  rw [hexec]
  have hw : Recorded.Told { w with client := w.client.entering } text := h
  have hnone : text ++ data.take 0 = text := by simp
  unfold Recorded.read seeExecute
  split
  · exact ⟨0,hnone.symm ▸ h,fun _ herr => by contradiction⟩
  · split
    next hnil =>
      refine ⟨0,?_,fun _ _ => hnil ▸ rfl⟩
      rw [hnone]
      cases w.client.httpParser.state <;> exact h
    · obtain ⟨n,hn,hall⟩ := told_loop (g := g) data (p := w.client.httpParser)
        (k := entryMark w.client.httpParser.state) 0 hw
      rw [Nat.zero_add] at hall
      exact ⟨n,hn,hall⟩

theorem told_reads {g : Globals} {reads : List Bytes} {text : Bytes} {w : Recorded} (h : w.Told text) :
    ∀ call ∈ (w.reads g reads).calls, call.text <+: text ++ reads.flatten := by
  induction reads generalizing text w with
  | nil => simpa [Recorded.reads] using h.2
  | cons data rest ih =>
    obtain ⟨n,hn,hall⟩ := told_read (g := g) data h
    intro call hcall
    unfold Recorded.reads at hcall
    split at hcall
    next hgo =>
      rw [hall hgo.1 hgo.2] at hn
      simpa [List.append_assoc] using ih hn call hcall
    next =>
      refine (hn.2 call hcall).trans ?_
      rw [List.flatten_cons,← List.append_assoc]
      exact ((List.prefix_append_right_inj text).mpr (List.take_prefix n data)).trans
        (List.prefix_append _ _)

/-- A stream that nowhere opens such a trailer never fails the assertion of `add_header`. -/
theorem addHeader_paired_of_stream (g : Globals) (port : ℕ) (keepAlive : Bool) (reads : List Bytes)
    (h : ∀ text, text <+: reads.flatten → (headScan text).opensTrailer = false) :
    ∀ call ∈ (Recorded.reads g { client := idleClient port keepAlive } reads).calls,
      call.req.addsHeader → call.req.paired := by
  intro call hcall hadd
  by_contra hno
  have htext : call.text <+: reads.flatten :=
    told_reads (g := g) (w := { client := idleClient port keepAlive }) ⟨rfl,fun _ hc => by cases hc⟩
      call hcall
  have hopen := (sound_idle g port keepAlive reads call hcall).mp ⟨hadd,hno⟩
  rw [h _ htext] at hopen
  cases hopen

/-- In every run of reads, `add_header` always finds a name and a value exactly when no call of
`header_field_cb` comes for bytes that open a trailer behind a head that ends with a value. -/
theorem addHeader_paired_iff (g : Globals) (port : ℕ) (keepAlive : Bool) (reads : List Bytes) :
    (∀ call ∈ (Recorded.reads g { client := idleClient port keepAlive } reads).calls,
        call.req.addsHeader → call.req.paired) ↔
      ∀ call ∈ (Recorded.reads g { client := idleClient port keepAlive } reads).calls,
        (headScan call.text).opensTrailer = false := by
  have hsound := sound_idle g port keepAlive reads
  refine forall₂_congr fun call hcall => ?_
  rw [← Bool.not_eq_true,← hsound call hcall,not_and,not_not]

/-- A chunked request with a trailer field. -/
def trailerRequest : Bytes := ascii "GET / HTTP/1.1\nTransfer-Encoding:chunked\n\n0\r\nA:"

/-- The name of the trailer field runs `add_header` without a pair. -/
theorem addHeader_unpaired_trailer : ∃ call ∈ (Recorded.reads {}
    { client := idleClient 80 false } [trailerRequest]).calls,
      call.req.addsHeader ∧ ¬call.req.paired := by
  have h : (Recorded.reads {} { client := idleClient 80 false } [trailerRequest]).calls.any
      (fun call => call.req.addsHeader && !call.req.paired) = true := by decide +kernel
  obtain ⟨call,hcall,hc⟩ := List.any_eq_true.mp h
  exact ⟨call,hcall,by simpa using hc⟩

end Meinheld
