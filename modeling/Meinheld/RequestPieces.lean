import Meinheld.Server
import Meinheld.SplitBuffers

/-! The callbacks of a request on bytes that come in pieces: they fail on the same bytes, and leave
requests that differ at most in the room of their buffers. -/
namespace Meinheld

/-! ### Buffers -/

theorem Buffer.lt_grow {b : Buffer} {n : ℕ} (hl : b.limit < 2 ^ 31 - 1) (hn : n ≤ b.limit) :
    n < b.grow n := by
  have hint : intToSize (n + 1) = n + 1 := by
    unfold intToSize
    rw [Nat.mod_eq_of_lt (by omega)]
    simp only
    rw [if_pos (by omega)]
  unfold Buffer.grow
  simp only [hint]
  repeat' split
  all_goals omega

theorem write2buf_ok {b : Buffer} {c : Bytes} (hl : b.limit < 2 ^ 31 - 1)
    (hn : b.len + c.length ≤ b.limit) :
    write2buf b c = (.WRITE_OK,{ b with bufSize := b.grow (b.len + c.length), buf := b.buf ++ c }) := by
  unfold write2buf
  simp only
  rw [if_neg (by have := b.lt_grow hl hn; omega)]

@[simp] theorem write2buf_limit (b : Buffer) (c : Bytes) : (write2buf b c).2.limit = b.limit := by
  unfold write2buf
  simp only
  split <;> rfl

theorem write2buf_body {b : Buffer} {c : Bytes} (hl : b.limit = LIMIT_MAX)
    (hn : b.len + c.length ≤ LIMIT_MAX) : (write2buf b c).2.buf = b.buf ++ c := by
  have hmax : b.limit < 2 ^ 31 - 1 := by rw [hl]; decide
  rw [write2buf_ok hmax (by rw [hl]; exact hn)]

/-- A buffer no larger than its limit allows. -/
def Buffer.Sound (b : Buffer) : Prop := b.limit = LIMIT_PATH ∧ b.bufSize ≤ LIMIT_PATH + 1

theorem Buffer.Sound.grow {b : Buffer} (hb : b.Sound) (n : ℕ) : b.grow n ≤ LIMIT_PATH + 1 := by
  obtain ⟨hl,hs⟩ := hb
  unfold Buffer.grow
  simp only [hl]
  repeat' split
  all_goals omega

theorem Buffer.Sound.write_iff {b : Buffer} (hb : b.Sound) (c : Bytes) :
    (write2buf b c).1 = .WRITE_OK ↔ b.len + c.length ≤ LIMIT_PATH := by
  have hlim : LIMIT_PATH < 2 ^ 31 - 1 := by decide
  constructor
  · intro h
    by_contra hn
    have hg := hb.grow (b.len + c.length)
    unfold write2buf at h
    simp only at h
    rw [if_pos (by omega)] at h
    cases h
  · intro h
    rw [write2buf_ok (by rw [hb.1]; exact hlim) (by rw [hb.1]; exact h)]

theorem Buffer.Sound.write {b : Buffer} (hb : b.Sound) {c : Bytes}
    (h : (write2buf b c).1 = .WRITE_OK) :
    (write2buf b c).2.buf = b.buf ++ c ∧ (write2buf b c).2.Sound := by
  have hn := (hb.write_iff c).mp h
  have hlim : LIMIT_PATH < 2 ^ 31 - 1 := by decide
  rw [write2buf_ok (by rw [hb.1]; exact hlim) (by rw [hb.1]; exact hn)]
  exact ⟨rfl,hb.1,hb.grow _⟩

theorem newBuffer_sound : (newBuffer 1024 LIMIT_PATH).Sound := ⟨rfl,by decide⟩

/-! ### Requests that differ in the room of their buffers -/

structure PathAlike (b b' : Buffer) : Prop where
  buf : b'.buf = b.buf
  left : b.Sound
  right : b'.Sound

/-- The bodies of requests with `n` bytes of body read: past the limit of a buffer the bytes kept
depend on the pieces they came in. -/
inductive BodyAlike : ℕ → Body → Body → Prop
  | none : BodyAlike 0 .none .none
  | tmpfile (n : ℕ) (c : Option Bytes) : BodyAlike n (.tmpfile c) (.tmpfile c)
  | buffer {n : ℕ} {b b' : Buffer} : (n ≤ LIMIT_MAX → b.len = n ∧ b'.buf = b.buf ∧
      b.limit = LIMIT_MAX ∧ b'.limit = LIMIT_MAX) → BodyAlike n (.buffer b) (.buffer b')

structure Request.Alike (r r' : Request) : Prop where
  path : Option.Rel PathAlike r.path r'.path
  body : BodyAlike r.bodyReaded r.body r'.body
  rest : r' = { r with path := r'.path, body := r'.body }

structure Client.Alike (c c' : Client) : Prop where
  current : Option.Rel Request.Alike c.currentReq c'.currentReq
  queue : c'.requestQueue.length = c.requestQueue.length
  rest : c' = { c with
    currentReq := c'.currentReq
    requestQueue := c'.requestQueue
    httpParser := c'.httpParser }

theorem PathAlike.trans {a b c : Buffer} (h : PathAlike a b) (h' : PathAlike b c) :
    PathAlike a c := ⟨h'.buf.trans h.buf,h.left,h'.right⟩

theorem BodyAlike.trans {n : ℕ} {a b c : Body} (h : BodyAlike n a b) (h' : BodyAlike n b c) :
    BodyAlike n a c := by
  cases h with
  | none => exact h'
  | tmpfile => exact h'
  | buffer h1 =>
    cases h' with
    | buffer h2 =>
      refine .buffer fun hn => ?_
      obtain ⟨hl,hb,hlim,-⟩ := h1 hn
      obtain ⟨-,hb',-,hlim'⟩ := h2 hn
      exact ⟨hl,hb'.trans hb,hlim,hlim'⟩

theorem optionRel_trans {α : Type*} {R : α → α → Prop} (hR : ∀ {a b c}, R a b → R b c → R a c)
    {a b c : Option α} (h : Option.Rel R a b) (h' : Option.Rel R b c) : Option.Rel R a c := by
  cases h with
  | none => exact h'
  | some h1 =>
    cases h' with
    | some h2 => exact .some (hR h1 h2)

theorem Request.Alike.trans {a b c : Request} (h : a.Alike b) (h' : b.Alike c) : a.Alike c where
  path := optionRel_trans (R := PathAlike) PathAlike.trans h.path h'.path
  body := by
    have hr : b.bodyReaded = a.bodyReaded := by rw [h.rest]
    exact h.body.trans (hr ▸ h'.body)
  rest := by rw [h'.rest,h.rest]

theorem Client.Alike.trans {a b c : Client} (h : a.Alike b) (h' : b.Alike c) : a.Alike c where
  current := optionRel_trans (R := Request.Alike) Request.Alike.trans h.current h'.current
  queue := h'.queue.trans h.queue
  rest := by rw [h'.rest,h.rest]

theorem Request.Alike.exists {r r' : Request} (h : r.Alike r') : ∃ P B,
    Option.Rel PathAlike r.path P ∧ BodyAlike r.bodyReaded r.body B ∧
      r' = { r with path := P, body := B } := ⟨_,_,h.path,h.body,h.rest⟩

/-! ### The data callbacks -/

def Respects (f : Request → Option (Bool × Request)) : Prop :=
  ∀ r r' s, r.Alike r' → f r = some (true,s) → ∃ s', f r' = some (true,s') ∧ s.Alike s'

def Splits (f : Bytes → Request → Option (Bool × Request)) : Prop :=
  ∀ r s a b, r.Alike r → f (a ++ b) r = some (true,s) →
    ∃ s1 s', f a r = some (true,s1) ∧ f b s1 = some (true,s') ∧ s.Alike s'

theorem storeField_true {req s : Request} {buf : Bytes} : storeField req buf = (true,s) ↔
    checkFieldName buf ∧ (nextField req.field buf).length ≤ LIMIT_REQUEST_FIELD_SIZE ∧
      s = { req with field := some (nextField req.field buf), lastHeaderElement := .FIELD } := by
  unfold storeField Request.bad
  split
  next h => simp [show checkFieldName buf = false by simpa using h]
  next h =>
    split
    next hl => simp [Nat.not_le.mpr hl]
    next hl =>
      rw [Prod.mk.injEq]
      simp only [true_and,eq_comm]
      exact ⟨fun hs => ⟨by simpa using h,Nat.not_lt.mp hl,hs⟩,fun hs => hs.2.2⟩

theorem checkFieldName_append (a b : Bytes) :
    checkFieldName (a ++ b) = (checkFieldName a && checkFieldName b) := by
  simp [checkFieldName]

theorem nextField_append (field : Option Bytes) (a b : Bytes) :
    nextField field (a ++ b) = nextField (some (nextField field a)) b := by
  cases field <;> simp [nextField,getHttpHeaderKey]

theorem length_nextField_le (field : Option Bytes) (a b : Bytes) :
    (nextField field a).length ≤ (nextField field (a ++ b)).length := by
  rw [nextField_append]
  simp [nextField]

theorem storeField_append {req s : Request} {a b : Bytes} (h : storeField req (a ++ b) = (true,s)) :
    ∃ s1, storeField req a = (true,s1) ∧ s1.lastHeaderElement = .FIELD ∧
      storeField s1 b = (true,s) := by
  obtain ⟨hc,hl,hs⟩ := storeField_true.mp h
  rw [checkFieldName_append,Bool.and_eq_true] at hc
  refine ⟨_,storeField_true.mpr ⟨hc.1,(length_nextField_le _ a b).trans hl,rfl⟩,rfl,
    storeField_true.mpr ⟨hc.2,?_,?_⟩⟩
  · rwa [nextField_append] at hl
  · rw [hs,nextField_append]

theorem addHeader_some {req s : Request} (h : addHeader req = some s) :
    s.field = none ∧ s.path = req.path ∧ s.body = req.body ∧ s.bodyReaded = req.bodyReaded := by
  unfold addHeader at h
  split at h
  · cases h
    exact ⟨rfl,rfl,rfl,rfl⟩
  · cases h

theorem headerFieldCb_true {req s : Request} {buf : Bytes} :
    headerFieldCb buf req = some (true,s) ↔
      (req.lastHeaderElement = .FIELD ∧ storeField req buf = (true,s)) ∨
      (req.lastHeaderElement ≠ .FIELD ∧ req.numHeaders < LIMIT_REQUEST_FIELDS ∧
        ∃ r, addHeader req = some r ∧ storeField r buf = (true,s)) := by
  unfold headerFieldCb
  by_cases h1 : req.lastHeaderElement = .FIELD
  · simp [h1]
  · by_cases h2 : req.numHeaders < LIMIT_REQUEST_FIELDS
    · simp [h1,h2,Nat.not_le.mpr h2]
    · simp [h1,h2,Nat.not_lt.mp h2,Request.bad]

/-- The part of a request the two relations are about. -/
theorem Request.Alike.same {r s : Request} (h : r.Alike r) (hp : s.path = r.path)
    (hb : s.body = r.body) (hn : s.bodyReaded = r.bodyReaded) : s.Alike s :=
  ⟨by rw [hp]; exact h.path,by rw [hb,hn]; exact h.body,rfl⟩

theorem headerFieldCb_keeps {req s : Request} {buf : Bytes}
    (h : headerFieldCb buf req = some (true,s)) :
    s.path = req.path ∧ s.body = req.body ∧ s.bodyReaded = req.bodyReaded := by
  obtain ⟨-,h2⟩ | ⟨-,-,r,h3,h4⟩ := headerFieldCb_true.mp h
  · obtain ⟨-,-,rfl⟩ := storeField_true.mp h2
    exact ⟨rfl,rfl,rfl⟩
  · obtain ⟨-,-,rfl⟩ := storeField_true.mp h4
    exact (addHeader_some h3).2

theorem headerFieldCb_splits : Splits headerFieldCb := by
  intro r s a b hr h
  obtain ⟨hp,hb,hn⟩ := headerFieldCb_keeps h
  obtain ⟨h1,h2⟩ | ⟨h1,h2,r',h3,h4⟩ := headerFieldCb_true.mp h
  · obtain ⟨s1,h3,h4,h5⟩ := storeField_append h2
    exact ⟨s1,s,headerFieldCb_true.mpr (.inl ⟨h1,h3⟩),headerFieldCb_true.mpr (.inl ⟨h4,h5⟩),
      hr.same hp hb hn⟩
  · obtain ⟨s1,h5,h6,h7⟩ := storeField_append h4
    exact ⟨s1,s,headerFieldCb_true.mpr (.inr ⟨h1,h2,r',h3,h5⟩),
      headerFieldCb_true.mpr (.inl ⟨h6,h7⟩),hr.same hp hb hn⟩

theorem addHeader_room (r : Request) (P : Option Buffer) (B : Body) :
    addHeader { r with path := P, body := B } =
      (addHeader r).map fun s => { s with path := P, body := B } := by
  unfold addHeader
  cases r.field <;> cases r.value <;> rfl

theorem storeField_room (r : Request) (P : Option Buffer) (B : Body) (buf : Bytes) :
    storeField { r with path := P, body := B } buf =
      ((storeField r buf).1,{ (storeField r buf).2 with path := P, body := B }) := by
  unfold storeField Request.bad
  simp only
  repeat' split
  all_goals rfl

theorem headerFieldCb_room (r : Request) (P : Option Buffer) (B : Body) (buf : Bytes) :
    headerFieldCb buf { r with path := P, body := B } =
      (headerFieldCb buf r).map fun s => (s.1,{ s.2 with path := P, body := B }) := by
  unfold headerFieldCb
  simp only [addHeader_room,storeField_room]
  repeat' split
  · rfl
  · cases addHeader r <;> simp [storeField_room]
  · rfl

theorem headerValueCb_room (r : Request) (P : Option Buffer) (B : Body) (buf : Bytes) :
    headerValueCb buf { r with path := P, body := B } =
      (headerValueCb buf r).map fun s => (s.1,{ s.2 with path := P, body := B }) := by
  unfold headerValueCb Request.bad
  simp only
  split <;> rfl

theorem headerValueCb_true {req s : Request} {buf : Bytes} :
    headerValueCb buf req = some (true,s) ↔
      (req.value.getD [] ++ buf).length ≤ LIMIT_REQUEST_FIELD_SIZE ∧
        s = { req with value := some (req.value.getD [] ++ buf), lastHeaderElement := .VALUE } := by
  unfold headerValueCb
  simp only
  split
  next h =>
    have hl := Nat.not_le.mpr h
    exact ⟨fun hs => by simp [Request.bad] at hs,fun hs => absurd hs.1 hl⟩
  next h =>
    rw [Option.some.injEq,Prod.mk.injEq]
    exact ⟨fun hs => ⟨Nat.not_lt.mp h,hs.2.symm⟩,fun hs => ⟨rfl,hs.2.symm⟩⟩

theorem headerValueCb_splits : Splits headerValueCb := by
  intro r s a b hr h
  obtain ⟨hl,hs⟩ := headerValueCb_true.mp h
  refine ⟨_,s,headerValueCb_true.mpr ⟨?_,rfl⟩,headerValueCb_true.mpr ⟨?_,?_⟩,?_⟩
  · simp only [List.length_append] at hl ⊢
    omega
  · simpa using hl
  · simp [hs]
  · exact hr.same (by rw [hs]) (by rw [hs]) (by rw [hs])

theorem respects_of_room {f : Request → Option (Bool × Request)}
    (hroom : ∀ r P B, f { r with path := P, body := B } =
      (f r).map fun s => (s.1,{ s.2 with path := P, body := B }))
    (hkeep : ∀ r s, f r = some (true,s) →
      s.path = r.path ∧ s.body = r.body ∧ s.bodyReaded = r.bodyReaded) : Respects f := by
  intro r r' s hr h
  obtain ⟨P,B,hP,hB,rfl⟩ := hr.exists
  obtain ⟨hp,hb,hn⟩ := hkeep r s h
  refine ⟨{ s with path := P, body := B },by rw [hroom,h]; rfl,⟨?_,?_,rfl⟩⟩
  · rw [hp]
    exact hP
  · rw [hn,hb]
    exact hB

theorem headerFieldCb_respects (buf : Bytes) : Respects (headerFieldCb buf) :=
  respects_of_room (fun r P B => headerFieldCb_room r P B buf) fun _ _ => headerFieldCb_keeps

theorem headerValueCb_respects (buf : Bytes) : Respects (headerValueCb buf) := by
  refine respects_of_room (fun r P B => headerValueCb_room r P B buf) fun r s h => ?_
  obtain ⟨-,rfl⟩ := headerValueCb_true.mp h
  exact ⟨rfl,rfl,rfl⟩

/-- The buffer that `url_cb` writes to. -/
def urlBuffer (req : Request) : Buffer := req.path.getD (newBuffer 1024 LIMIT_PATH)

theorem urlCb_true {req s : Request} {buf : Bytes} : urlCb buf req = some (true,s) ↔
    (write2buf (urlBuffer req) buf).1 = .WRITE_OK ∧
      s = { req with path := some (write2buf (urlBuffer req) buf).2 } := by
  unfold urlCb urlBuffer
  simp only
  split
  next hw => simp [hw,Request.bad]
  next hw => simp [hw,Request.bad]
  next hw =>
    rw [hw,Option.some.injEq,Prod.mk.injEq]
    exact ⟨fun hs => ⟨rfl,hs.2.symm⟩,fun hs => ⟨rfl,hs.2.symm⟩⟩

/-- The buffers two alike requests write their URLs to. -/
theorem Request.Alike.urlBuffer {r r' : Request} (h : r.Alike r') :
    PathAlike (urlBuffer r) (urlBuffer r') := by
  obtain ⟨P,B,hP,-,rfl⟩ := h.exists
  unfold Meinheld.urlBuffer
  simp only
  cases hp : r.path with
  | none =>
    rw [hp] at hP
    cases hP
    exact ⟨rfl,newBuffer_sound,newBuffer_sound⟩
  | some b =>
    rw [hp] at hP
    cases hP with
    | some hb => exact hb

theorem urlCb_respects (buf : Bytes) : Respects (urlCb buf) := by
  intro r r' s hr h
  obtain ⟨hw,rfl⟩ := urlCb_true.mp h
  obtain ⟨hbuf,hl,hl'⟩ := hr.urlBuffer
  have hw' : (write2buf (urlBuffer r') buf).1 = .WRITE_OK := by
    rw [hl'.write_iff,Buffer.len,hbuf]
    exact (hl.write_iff buf).mp hw
  refine ⟨_,urlCb_true.mpr ⟨hw',rfl⟩,.some ⟨?_,(hl.write hw).2,(hl'.write hw').2⟩,hr.body,?_⟩
  · rw [(hl.write hw).1,(hl'.write hw').1,hbuf]
  · exact congrArg (fun x : Request => { x with path := some (write2buf (urlBuffer r') buf).2 })
      hr.rest

theorem urlCb_splits : Splits urlCb := by
  intro r s a b hr h
  obtain ⟨hw,rfl⟩ := urlCb_true.mp h
  have hl : (urlBuffer r).Sound := hr.urlBuffer.left
  have hn := (hl.write_iff _).mp hw
  have hwa : (write2buf (urlBuffer r) a).1 = .WRITE_OK := by
    rw [hl.write_iff]
    simp only [List.length_append] at hn
    omega
  obtain ⟨hba,hla⟩ := hl.write hwa
  have hwb : (write2buf (write2buf (urlBuffer r) a).2 b).1 = .WRITE_OK := by
    rw [hla.write_iff,Buffer.len,hba]
    simp only [List.length_append,Buffer.len] at hn ⊢
    omega
  refine ⟨_,_,urlCb_true.mpr ⟨hwa,rfl⟩,urlCb_true.mpr ⟨hwb,rfl⟩,?_⟩
  refine ⟨.some ⟨?_,(hl.write hw).2,(hla.write hwb).2⟩,hr.body,rfl⟩
  rw [(hl.write hw).1,urlBuffer,Option.getD_some,(hla.write hwb).1,hba,List.append_assoc]

/-- The body that `body_cb` writes to. -/
def openBody (g : Globals) (req : Request) : Body :=
  if req.body = .none then newBody g req else req.body

theorem bodyCb_true {g : Globals} {p : HttpParser} {req s : Request} {buf : Bytes} :
    bodyCb g p buf req = some (true,s) ↔ req.bodyReaded + buf.length ≤ g.maxContentLength ∧
      ¬(req.body = .none ∧ req.bodyLength = 0 ∧ p.flags.chunked = false) ∧
      writeBody { req with body := openBody g req } buf = some s := by
  unfold bodyCb openBody
  split
  next h => simp [Request.bad,Nat.not_le.mpr h]
  next h =>
    split
    next hb =>
      split
      next hl =>
        have hc : p.flags.chunked = false := by simpa using hl.2
        simp [Request.bad,hb,hl.1,hc]
      next hl =>
        have hc : ¬(req.bodyLength = 0 ∧ p.flags.chunked = false) := by simpa using hl
        simp [hb,Nat.not_lt.mp h,hc]
    next hb => simp [hb,Nat.not_lt.mp h]

/-- What `write_body` adds to the body. -/
theorem writeBody_some {req s : Request} {buf : Bytes} (h : writeBody req buf = some s) :
    s.body ≠ .none ∧
      s = { req with body := s.body, bodyReaded := req.bodyReaded + buf.length } := by
  unfold writeBody at h
  split at h
  · cases h
  · cases h
    exact ⟨by simp,rfl⟩
  · cases h
    exact ⟨by simp,rfl⟩
  · cases h

theorem BodyAlike.write {r r' s : Request} {buf : Bytes} (h : BodyAlike r.bodyReaded r.body r'.body)
    (hn : r'.bodyReaded = r.bodyReaded) (hs : writeBody r buf = some s) :
    ∃ s', writeBody r' buf = some s' ∧ BodyAlike s.bodyReaded s.body s'.body := by
  unfold writeBody at hs ⊢
  rw [hn]
  generalize r.body = b at h hs
  generalize r'.body = b' at h ⊢
  generalize r.bodyReaded = n at h hs ⊢
  cases h with
  | none => cases hs
  | tmpfile _ c =>
    cases c with
    | none => cases hs
    | some c =>
      cases hs
      exact ⟨_,rfl,.tmpfile _ _⟩
  | @buffer _ b b' hbb =>
    cases hs
    refine ⟨_,rfl,.buffer fun hlim => ?_⟩
    simp only at hlim
    obtain ⟨h1,h2,h3,h4⟩ := hbb (by omega)
    have h5 : b'.len = b.len := congrArg List.length h2
    have hb := write2buf_body h3 (c := buf) (by omega)
    have hb' := write2buf_body h4 (c := buf) (by omega)
    refine ⟨?_,by rw [hb,hb',h2],by simp [h3],by simp [h4]⟩
    rw [Buffer.len,hb,List.length_append,← h1,Buffer.len]

/-- What `write_body` writes for two pieces at once and for one after the other. -/
theorem BodyAlike.write_append {r s : Request} {a b : Bytes}
    (h : BodyAlike r.bodyReaded r.body r.body) (hs : writeBody r (a ++ b) = some s) :
    ∃ s1 s', writeBody r a = some s1 ∧ writeBody s1 b = some s' ∧
      BodyAlike s.bodyReaded s.body s'.body := by
  unfold writeBody at hs ⊢
  generalize r.body = x at h hs ⊢
  generalize r.bodyReaded = n at h hs ⊢
  cases h with
  | none => cases hs
  | tmpfile _ c =>
    cases c with
    | none => cases hs
    | some c =>
      cases hs
      refine ⟨_,_,rfl,rfl,?_⟩
      rw [List.append_assoc]
      exact .tmpfile _ _
  | @buffer _ x _ hx =>
    cases hs
    refine ⟨_,_,rfl,rfl,.buffer fun hlim => ?_⟩
    simp only [List.length_append] at hlim
    obtain ⟨h1,-,h3,-⟩ := hx (by omega)
    have hab := write2buf_body h3 (c := a ++ b) (by rw [List.length_append]; omega)
    have ha := write2buf_body h3 (c := a) (by omega)
    have hb := write2buf_body (b := (write2buf x a).2) (c := b) (by rw [write2buf_limit,h3])
      (by rw [Buffer.len,ha,List.length_append,← Buffer.len]; omega)
    refine ⟨?_,by rw [hb,ha,hab,List.append_assoc],by simp [h3],by simp [h3]⟩
    rw [Buffer.len,hab,List.length_append,← h1,Buffer.len]

theorem openBody_alike {g : Globals} {r r' : Request} (h : r.Alike r') :
    BodyAlike r.bodyReaded (openBody g r) (openBody g r') := by
  obtain ⟨P,B,-,hB,rfl⟩ := h.exists
  unfold openBody
  simp only
  generalize r.body = x at hB ⊢
  generalize r.bodyReaded = n at hB ⊢
  cases hB with
  | none =>
    simp only [if_true,newBody]
    split
    · exact .tmpfile _ _
    · exact .buffer fun _ => ⟨rfl,rfl,rfl,rfl⟩
  | tmpfile _ c => exact .tmpfile _ c
  | buffer hbb => exact .buffer hbb

theorem body_eq_none_iff {n : ℕ} {x y : Body} (h : BodyAlike n x y) : y = .none ↔ x = .none := by
  cases h <;> simp

theorem bodyCb_respects (g : Globals) (p : HttpParser) (buf : Bytes) :
    Respects (bodyCb g p buf) := by
  intro r r' s hr h
  obtain ⟨hmax,hlen,hw⟩ := bodyCb_true.mp h
  obtain ⟨P,B,hP,hB,hrest⟩ := hr.exists
  have hn : r'.bodyReaded = r.bodyReaded := by rw [hrest]
  have hl : r'.bodyLength = r.bodyLength := by rw [hrest]
  have hb : r'.body = .none ↔ r.body = .none := body_eq_none_iff hr.body
  have hopen : BodyAlike r.bodyReaded (openBody g r) (openBody g r') := openBody_alike hr
  obtain ⟨s',hs',halike⟩ := @BodyAlike.write { r with body := openBody g r }
    { r' with body := openBody g r' } _ _ hopen hn hw
  have h1 := (writeBody_some hw).2
  have h2 : s' = { r' with body := s'.body, bodyReaded := r.bodyReaded + buf.length } := by
    rw [← hn]
    exact (writeBody_some hs').2
  refine ⟨s',bodyCb_true.mpr ⟨by rwa [hn],by rwa [hb,hl],hs'⟩,?_,halike,?_⟩
  · rw [h1,h2]
    exact hr.path
  · rw [h1,h2]
    exact congrArg (fun x : Request =>
      { x with body := s'.body, bodyReaded := r.bodyReaded + buf.length }) hr.rest

theorem bodyCb_splits (g : Globals) (p : HttpParser) : Splits (bodyCb g p) := by
  intro r s a b hr h
  obtain ⟨hmax,hlen,hw⟩ := bodyCb_true.mp h
  have hopen : BodyAlike r.bodyReaded (openBody g r) (openBody g r) := openBody_alike hr
  obtain ⟨s1,s',h1,h2,halike⟩ :=
    BodyAlike.write_append (r := { r with body := openBody g r }) hopen hw
  obtain ⟨hb1,hs1⟩ := writeBody_some h1
  have hn1 : s1.bodyReaded = r.bodyReaded + a.length := by rw [hs1]
  have hopen1 : openBody g s1 = s1.body := if_neg hb1
  rw [List.length_append] at hmax
  refine ⟨s1,s',bodyCb_true.mpr ⟨by omega,hlen,h1⟩,
    bodyCb_true.mpr ⟨by omega,fun h0 => hb1 h0.1,by rwa [hopen1]⟩,?_⟩
  have h3 := (writeBody_some hw).2
  have h4 := (writeBody_some h2).2
  refine ⟨?_,halike,?_⟩
  · rw [h3,h4,hs1]
    exact hr.path
  · rw [h3,h4,hs1]
    simp [List.length_append,Nat.add_assoc]

/-! ### The notify callbacks -/

theorem requestLineEnv_room {g : Globals} {p : HttpParser} {r : Request} {P : Option Buffer}
    {B : Body} (h : Option.Rel PathAlike r.path P) :
    requestLineEnv g p { r with path := P, body := B } = requestLineEnv g p r := by
  unfold requestLineEnv
  simp only
  generalize r.path = x at h ⊢
  cases h with
  | none => rfl
  | some h => simp only [h.buf]

theorem lastHeader_room (r : Request) (P : Option Buffer) (B : Body) :
    lastHeader { r with path := P, body := B } = { lastHeader r with path := P, body := B } := by
  unfold lastHeader
  rw [addHeader_room]
  cases addHeader r <;> rfl

theorem lastHeader_keeps (r : Request) : (lastHeader r).path = r.path ∧
    (lastHeader r).body = r.body ∧ (lastHeader r).bodyReaded = r.bodyReaded := by
  unfold lastHeader
  cases h : addHeader r with
  | none => exact ⟨rfl,rfl,rfl⟩
  | some s => exact (addHeader_some h).2

theorem headersComplete_respects (g : Globals) (p : HttpParser) :
    Respects fun r => some (headersComplete g p r) := by
  intro r r' s hr h
  obtain ⟨P,B,hP,hB,rfl⟩ := hr.exists
  unfold headersComplete at h ⊢
  simp only [requestLineEnv_room hP] at h ⊢
  split at h
  · simp [Request.bad] at h
  next hl =>
    rw [if_neg hl]
    cases h
    refine ⟨_,rfl,?_⟩
    have hroom := lastHeader_room { r with environ := requestLineEnv g p r, path := none } none B
    obtain ⟨h1,h2,h3⟩ := lastHeader_keeps { r with environ := requestLineEnv g p r, path := none }
    rw [hroom]
    refine ⟨?_,?_,?_⟩
    · rw [h1]
      exact .none
    · rw [h2,h3]
      exact hB
    · rw [h1]

theorem onCurrentReq_true {c e : Client} {f : Request → Option (Bool × Request)} :
    onCurrentReq c f = (true,e) ↔ ∃ r s, c.currentReq = some r ∧ f r = some (true,s) ∧
      e = { c with currentReq := some s } := by
  unfold onCurrentReq Client.abort
  cases hc : c.currentReq with
  | none => simp
  | some r =>
    simp only [Option.bind_some]
    cases hf : f r with
    | none => simp [hf]
    | some x =>
      obtain ⟨b,s⟩ := x
      simp [hf,eq_comm]

theorem Respects.onCurrentReq {f : Request → Option (Bool × Request)} (hf : Respects f)
    {c c' e : Client} (hc : c.Alike c') (h : onCurrentReq c f = (true,e)) :
    ∃ e', onCurrentReq c' f = (true,e') ∧ e.Alike e' := by
  obtain ⟨r,s,hr,hs,rfl⟩ := onCurrentReq_true.mp h
  obtain ⟨hcur,hq,hrest⟩ := hc
  rw [hr] at hcur
  generalize hx : c'.currentReq = x at hcur
  cases hcur with
  | some h =>
    obtain ⟨s',hs',halike⟩ := hf _ _ _ h hs
    refine ⟨_,onCurrentReq_true.mpr ⟨_,s',hx,hs',rfl⟩,.some halike,hq,?_⟩
    exact congrArg (fun x : Client => { x with currentReq := some s' }) hrest

theorem Splits.onCurrentReq {f : Bytes → Request → Option (Bool × Request)} (hf : Splits f)
    {a b : Bytes} {c e : Client} (hc : c.Alike c) (h : onCurrentReq c (f (a ++ b)) = (true,e)) :
    ∃ d e', onCurrentReq c (f a) = (true,d) ∧ onCurrentReq d (f b) = (true,e') ∧ e.Alike e' := by
  obtain ⟨r,s,hr,hs,rfl⟩ := onCurrentReq_true.mp h
  obtain ⟨hcur,-,-⟩ := hc
  rw [hr] at hcur
  cases hcur with
  | some halike =>
    obtain ⟨s1,s',h1,h2,h3⟩ := hf _ _ _ _ halike hs
    exact ⟨_,_,onCurrentReq_true.mpr ⟨r,s1,hr,h1,rfl⟩,onCurrentReq_true.mpr ⟨s1,s',rfl,h2,rfl⟩,
      .some h3,rfl,rfl⟩

theorem Client.Alike.length_queue {c c' : Client} (hc : c.Alike c') :
    c'.queue.length = c.queue.length := by
  obtain ⟨hcur,hq,-⟩ := hc
  unfold Client.queue
  rw [List.length_append,List.length_append,hq]
  generalize c.currentReq = x at hcur ⊢
  generalize c'.currentReq = x' at hcur ⊢
  cases hcur <;> rfl

theorem messageBeginCb_alike {g : Globals} {c c' e : Client} (hc : c.Alike c')
    (h : messageBeginCb g c = (true,e)) : ∃ e', messageBeginCb g c' = (true,e') ∧ e.Alike e' := by
  cases h
  have henv : newEnviron g c' = newEnviron g c := by rw [hc.rest]; rfl
  refine ⟨_,rfl,.some ⟨.none,.none,by rw [henv]⟩,hc.length_queue,?_⟩
  exact congrArg (fun x : Client => { x with
    requestQueue := c'.queue
    currentReq := some { environ := newEnviron g c' }
    complete := false }) hc.rest

/-- The callbacks of the server may get their bytes in pieces. -/
theorem settings_additive (g : Globals) : Additive (settings g) Client.Alike where
  trans := Client.Alike.trans
  notify := by
    intro n p c c' e hc h
    cases n with
    | messageBegin => exact messageBeginCb_alike hc h
    | headersComplete =>
      have halike : Client.Alike { c with keepAlive := httpShouldKeepAlive p }
          { c' with keepAlive := httpShouldKeepAlive p } := ⟨hc.current,hc.queue,
        congrArg (fun x : Client => { x with keepAlive := httpShouldKeepAlive p }) hc.rest⟩
      exact (headersComplete_respects g p).onCurrentReq halike h
    | messageComplete =>
      cases h
      refine ⟨_,rfl,hc.current,hc.queue,?_⟩
      exact congrArg (fun x : Client => { x with complete := true, upgrade := p.upgrade }) hc.rest
  data := by
    intro k p buf c c' e hc h
    cases k with
    | headerField => exact (headerFieldCb_respects buf).onCurrentReq hc h
    | headerValue => exact (headerValueCb_respects buf).onCurrentReq hc h
    | url => exact (urlCb_respects buf).onCurrentReq hc h
    | body => exact (bodyCb_respects g p buf).onCurrentReq hc h
  flags := by
    intro k p p' buf c hf
    cases k with
    | headerField => rfl
    | headerValue => rfl
    | url => rfl
    | body =>
      have hcb : bodyCb g p buf = bodyCb g p' buf := by
        funext req
        unfold bodyCb
        rw [hf rfl]
      exact congrArg (onCurrentReq c) hcb
  split := by
    intro k p a b c e hc h
    cases k with
    | headerField => exact headerFieldCb_splits.onCurrentReq hc h
    | headerValue => exact headerValueCb_splits.onCurrentReq hc h
    | url => exact urlCb_splits.onCurrentReq hc h
    | body => exact (bodyCb_splits g p).onCurrentReq hc h

end Meinheld
