import Meinheld.FieldCalls
import Meinheld.HeaderLines
import Meinheld.Payload

/-! What the lines of a message come to against the limits of the callbacks, byte by byte. -/
namespace Meinheld

/-! ### The tally -/

/-- What the callbacks on lines count of a request: the lengths of its URL, of the name and of the
value that are read, and its headers. `refused` tells that a callback does not return 0. -/
structure Tally where
  url : ℕ := 0
  numHeaders : ℕ := 0
  lastHeaderElement : FieldType := .FIELD
  field : Option ℕ := none
  value : Option ℕ := none
  refused : Bool := false
  deriving DecidableEq, Repr

/-- There is a name and a value. -/
def Tally.paired (t : Tally) : Bool := t.field.isSome && t.value.isSome

/-- The pair is added. -/
def Tally.add (t : Tally) : Tally :=
  { t with numHeaders := t.numHeaders + 1, lastHeaderElement := .FIELD, field := none, value := none }

/-- `n` bytes of a name: "HTTP_" comes first in a new one. -/
def Tally.name (n : ℕ) (t : Tally) : Tally :=
  { t with
    field := some (t.field.getD 5 + n)
    lastHeaderElement := .FIELD
    refused := t.refused || LIMIT_REQUEST_FIELD_SIZE < t.field.getD 5 + n }

/-- `n` bytes of what is marked. A name after a value needs room for one more header, and a pair to
add. -/
def Tally.take (n : ℕ) : Mark → Tally → Tally
  | .url, t => { t with url := t.url + n, refused := t.refused || LIMIT_PATH < t.url + n }
  | .headerField, t =>
    if t.lastHeaderElement = .FIELD then t.name n
    else if t.numHeaders < LIMIT_REQUEST_FIELDS ∧ t.paired then t.add.name n
    else { t with refused := true }
  | .headerValue, t => { t with
      value := some (t.value.getD 0 + n)
      lastHeaderElement := .VALUE
      refused := t.refused || LIMIT_REQUEST_FIELD_SIZE < t.value.getD 0 + n }
  | .body, t => t

/-- The head is over: the last pair is added, and the URL is used up. -/
def Tally.headEnd (t : Tally) : Tally :=
  { t with
    url := 0
    numHeaders := if t.paired then t.numHeaders + 1 else t.numHeaders
    field := if t.paired then none else t.field
    value := if t.paired then none else t.value }

def Tally.act (t : Tally) : Act → Tally
  | .mark k => t.take 0 k
  | .notify .messageBegin _ _ => { refused := t.refused }
  | .notify .headersComplete _ _ => t.headEnd
  | _ => t

/-- One byte. -/
def Tally.next (p : HttpParser) (t : Tally) (ch : Byte) : Tally :=
  match step p ch with
  | .next acts q =>
    match q.state.mark with
    | some k => (acts.foldl Tally.act t).take 1 k
    | none => acts.foldl Tally.act t
  | .stop acts _ => acts.foldl Tally.act t
  | _ => t

/-- The tally of some bytes. -/
def Tally.total : HttpParser → Tally → Bytes → Tally
  | _, t, [] => t
  | p, t, ch :: rest => total (step p ch).parser (t.next p ch) rest

/-- The tally of the head of a message. -/
def Tally.ofHead : HttpParser → Tally → Bytes → Tally
  | _, t, [] => t
  | p, t, ch :: rest => if p.behind then t else ofHead (step p ch).parser (t.next p ch) rest

/-- The request line or a header line is over the limits. -/
def headRefused (data : Bytes) : Bool := (Tally.ofHead {} {} data).refused

/-- The head is not over the limits, and a trailer is, or its first name finds no pair to add. -/
def trailerRefused (data : Bytes) : Bool := !headRefused data && (Tally.total {} {} data).refused

theorem Tally.take_take (n m : ℕ) (k : Mark) (t : Tally) : (t.take n k).take m k = t.take (n + m) k := by
  cases k with
  | url =>
    simp only [Tally.take,Nat.add_assoc,Tally.mk.injEq,true_and]
    cases t.refused <;> simp
    omega
  | headerField =>
    have hname : ∀ s : Tally, (s.name n).name m = s.name (n + m) := fun s => by
      simp only [Tally.name,Option.getD_some,Nat.add_assoc,Tally.mk.injEq,true_and]
      cases s.refused <;> simp
      omega
    simp only [Tally.take]
    by_cases hl : t.lastHeaderElement = .FIELD
    · simp only [if_pos hl]
      rw [if_pos (show (t.name n).lastHeaderElement = .FIELD from rfl),hname]
    · simp only [if_neg hl]
      by_cases hr : t.numHeaders < LIMIT_REQUEST_FIELDS ∧ t.paired
      · simp only [if_pos hr]
        rw [if_pos (show (t.add.name n).lastHeaderElement = .FIELD from rfl),hname]
      · simp only [if_neg hr]
        rw [if_neg hl,if_neg (by simpa [Tally.paired] using hr)]
  | headerValue =>
    simp only [Tally.take,Option.getD_some,Nat.add_assoc,Tally.mk.injEq,true_and]
    cases t.refused <;> simp
    omega
  | body => rfl

theorem Tally.take_refused {t : Tally} (h : t.refused) (n : ℕ) (k : Mark) : (t.take n k).refused := by
  cases k with
  | url => simp [Tally.take,h]
  | headerField =>
    simp only [Tally.take]
    split
    · simp [Tally.name,h]
    · split
      · simp [Tally.name,Tally.add,h]
      · rfl
  | headerValue => simp [Tally.take,h]
  | body => exact h

theorem Tally.foldl_refused {t : Tally} (h : t.refused) (acts : List Act) :
    (acts.foldl Tally.act t).refused := by
  induction acts generalizing t with
  | nil => exact h
  | cons a as ih =>
    refine ih ?_
    cases a with
    | mark k => exact take_refused h 0 k
    | data k incl adv p => exact h
    | notify n adv p => cases n <;> exact h

theorem Tally.next_refused {t : Tally} (h : t.refused) (p : HttpParser) (ch : Byte) :
    (t.next p ch).refused := by
  unfold Tally.next
  cases step p ch with
  | next acts q =>
    simp only
    split
    · exact take_refused (foldl_refused h acts) 1 _
    · exact foldl_refused h acts
  | stop acts q => exact foldl_refused h acts
  | bail q => exact h
  | error q => exact h

/-- A refusal is final. -/
theorem Tally.total_refused {t : Tally} (h : t.refused) (p : HttpParser) (data : Bytes) :
    (Tally.total p t data).refused := by
  induction data generalizing p t with
  | nil => exact h
  | cons ch rest ih => exact ih (next_refused h p ch) _

theorem Tally.ofHead_refused {t : Tally} (h : t.refused) (p : HttpParser) (data : Bytes) :
    (Tally.ofHead p t data).refused := by
  induction data generalizing p t with
  | nil => exact h
  | cons ch rest ih =>
    unfold Tally.ofHead
    split
    · exact h
    · exact ih (next_refused h p ch) _

theorem Tally.next_of_step {p q : HttpParser} {ch : Byte} {acts : List Act}
    (h : step p ch = .next acts q) (t : Tally) : t.next p ch =
      match q.state.mark with
      | some k => (acts.foldl Tally.act t).take 1 k
      | none => acts.foldl Tally.act t := by
  simp only [Tally.next,h]

theorem Tally.foldl_notify {acts : List Act} (ha : ∀ a ∈ acts, a.isNotify) (t : Tally) :
    (acts.foldl Tally.act t).refused = t.refused := by
  induction acts generalizing t with
  | nil => rfl
  | cons a as ih =>
    obtain ⟨ha,has⟩ := List.forall_mem_cons.mp ha
    rw [List.foldl_cons,ih has]
    cases a with
    | notify n adv p => cases n <;> rfl
    | mark k => cases ha
    | data k incl adv p => cases ha

/-- A byte that only notifies. -/
theorem Tally.next_notify {p q : HttpParser} {ch : Byte} {acts : List Act}
    (h : step p ch = .next acts q ∨ step p ch = .stop acts q) (ha : ∀ a ∈ acts, a.isNotify)
    (hp : p.state.mark = none) (t : Tally) : (t.next p ch).refused = t.refused := by
  rcases h with h | h
  · have hq : q.state.mark = none ∨ q.state.mark = some .body := by
      cases step_turn h with
      | quiet _ _ hq => exact hq
      | inside hk | finish hk | bodyByte hk | bodyLast hk => rw [hp] at hk; cases hk
      | start | empty => exact absurd (ha _ List.mem_cons_self) id
    rw [next_of_step h]
    rcases hq with hq | hq <;> rw [hq]
    · exact foldl_notify ha t
    · exact foldl_notify ha t
  · simp only [Tally.next,h]
    exact foldl_notify ha t

theorem Tally.ofHead_next {p : HttpParser} (hb : p.behind = false) (t : Tally) (ch : Byte)
    (rest : Bytes) : Tally.ofHead p t (ch :: rest) = Tally.ofHead (step p ch).parser (t.next p ch) rest := by
  simp only [Tally.ofHead,hb,Bool.false_eq_true,if_false]

theorem Tally.ofHead_behind {p : HttpParser} (hb : p.behind) (t : Tally) (rest : Bytes) :
    Tally.ofHead p t rest = t := by
  cases rest with
  | nil => rfl
  | cons ch rest => simp only [Tally.ofHead,hb,if_true]

/-! ### The tally of a request -/

def Request.tally (r : Request) : Tally where
  url := (urlBuffer r).len
  numHeaders := r.numHeaders
  lastHeaderElement := r.lastHeaderElement
  field := r.field.map List.length
  value := r.value.map List.length

def Request.tallyWith (r : Request) : Option (Mark × Bytes) → Tally
  | none => r.tally
  | some kb => r.tally.take kb.2.length kb.1

def Tallies (k : Mark) (buf : Bytes) (f : Request → Option (Bool × Request)) : Prop :=
  ∀ r, (urlBuffer r).Sound →
    (∀ s, f r = some (true,s) → s.tally = r.tally.take buf.length k ∧ (urlBuffer s).Sound) ∧
      ((∀ s, f r ≠ some (true,s)) → (r.tally.take buf.length k).refused)

theorem urlCb_tallies (buf : Bytes) : Tallies .url buf (urlCb buf) := by
  intro r hr
  have hiff := hr.write_iff buf
  constructor
  · intro s hs
    obtain ⟨hw,rfl⟩ := urlCb_true.mp hs
    obtain ⟨hbuf,hsound⟩ := hr.write hw
    refine ⟨?_,hsound⟩
    have hfit := hiff.mp hw
    simp only [Request.tally,Tally.take,urlBuffer,Option.getD_some,Tally.mk.injEq,Bool.false_or,
      true_and]
    simp only [urlBuffer] at hbuf hfit
    refine ⟨?_,?_⟩
    · simp only [Buffer.len,hbuf,List.length_append]
    · exact (decide_eq_false (Nat.not_lt.mpr hfit)).symm
  · intro hno
    by_contra hfit
    simp only [Request.tally,Tally.take,Bool.false_or,Bool.not_eq_true] at hfit
    replace hfit := Nat.not_lt.mp (of_decide_eq_false hfit)
    exact hno _ (urlCb_true.mpr ⟨hiff.mpr hfit,rfl⟩)

theorem headerValueCb_tallies (buf : Bytes) : Tallies .headerValue buf (headerValueCb buf) := by
  intro r hr
  have hlen : (r.value.getD [] ++ buf).length = (r.value.map List.length).getD 0 + buf.length := by
    cases r.value <;> simp
  constructor
  · intro s hs
    obtain ⟨hfit,rfl⟩ := headerValueCb_true.mp hs
    rw [hlen] at hfit
    refine ⟨?_,hr⟩
    simp only [Request.tally,Tally.take,Option.map_some,hlen,Tally.mk.injEq,true_and,Bool.false_or]
    exact ⟨rfl,(decide_eq_false (Nat.not_lt.mpr hfit)).symm⟩
  · intro hno
    by_contra hfit
    simp only [Request.tally,Tally.take,Bool.false_or,Bool.not_eq_true] at hfit
    replace hfit := Nat.not_lt.mp (of_decide_eq_false hfit)
    exact hno _ (headerValueCb_true.mpr ⟨hlen.trans_le hfit,rfl⟩)

theorem storeField_tally (r : Request) (buf : Bytes) :
    (∀ s, storeField r buf = (true,s) → s.tally = r.tally.name buf.length ∧
      urlBuffer s = urlBuffer r) ∧
      ((∀ s, storeField r buf ≠ (true,s)) → (r.tally.name buf.length).refused) := by
  have hlen : (nextField r.field buf).length = (r.field.map List.length).getD 5 + buf.length := by
    cases r.field <;> simp [nextField,getHttpHeaderKey]
    rfl
  constructor
  · intro s hs
    obtain ⟨-,hfit,rfl⟩ := storeField_true.mp hs
    rw [hlen] at hfit
    refine ⟨?_,rfl⟩
    simp only [Request.tally,Tally.name,Option.map_some,hlen,Tally.mk.injEq,true_and,Bool.false_or]
    exact ⟨rfl,(decide_eq_false (Nat.not_lt.mpr hfit)).symm⟩
  · intro hno
    by_contra hfit
    simp only [Request.tally,Tally.name,Bool.false_or,Bool.not_eq_true] at hfit
    replace hfit := Nat.not_lt.mp (of_decide_eq_false hfit)
    exact hno _ (storeField_true.mpr ⟨checkFieldName_true buf,hlen.trans_le hfit,rfl⟩)

theorem addHeader_tally {r s : Request} (h : addHeader r = some s) :
    s.tally.name = r.tally.add.name ∧ urlBuffer s = urlBuffer r := by
  unfold addHeader at h
  split at h
  · cases h
    exact ⟨rfl,rfl⟩
  · cases h

theorem headerFieldCb_tallies (buf : Bytes) : Tallies .headerField buf (headerFieldCb buf) := by
  intro r hr
  have hpaired : r.tally.paired = (addHeader r).isSome := by
    unfold addHeader
    cases hf : r.field <;> cases hv : r.value <;> simp [Request.tally,Tally.paired,hf,hv]
  by_cases hl : r.lastHeaderElement = .FIELD
  · have htake : r.tally.take buf.length .headerField = r.tally.name buf.length := by
      simp only [Tally.take]
      rw [if_pos (show r.tally.lastHeaderElement = .FIELD from hl)]
    have hcb : headerFieldCb buf r = some (storeField r buf) := by
      unfold headerFieldCb
      rw [if_neg (not_not.mpr hl)]
    rw [htake]
    obtain ⟨hok,hno⟩ := storeField_tally r buf
    constructor
    · intro s hs
      rw [hcb] at hs
      obtain ⟨h1,h2⟩ := hok s (Option.some.inj hs)
      exact ⟨h1,h2 ▸ hr⟩
    · exact fun hn => hno fun s hs => hn s (hcb.trans (congrArg some hs))
  · by_cases hroom : r.numHeaders < LIMIT_REQUEST_FIELDS
    · cases hadd : addHeader r with
      | none =>
        have hcb : headerFieldCb buf r = none := by
          unfold headerFieldCb
          rw [if_pos hl,if_neg (Nat.not_le.mpr hroom),hadd]
          rfl
        have htake : (r.tally.take buf.length .headerField).refused := by
          simp only [Tally.take]
          rw [if_neg (show ¬r.tally.lastHeaderElement = .FIELD from hl),if_neg]
          rintro ⟨-,hp⟩
          rw [hpaired,hadd] at hp
          cases hp
        exact ⟨fun s hs => (by rw [hcb] at hs; cases hs),fun _ => htake⟩
      | some r' =>
        obtain ⟨hname,hurl⟩ := addHeader_tally hadd
        have hcb : headerFieldCb buf r = some (storeField r' buf) := by
          unfold headerFieldCb
          rw [if_pos hl,if_neg (Nat.not_le.mpr hroom),hadd]
          rfl
        have htake : r.tally.take buf.length .headerField = r'.tally.name buf.length := by
          simp only [Tally.take]
          rw [if_neg (show ¬r.tally.lastHeaderElement = .FIELD from hl),if_pos ⟨hroom,by
            rw [hpaired,hadd]; rfl⟩]
          exact (congrFun hname _).symm
        rw [htake]
        obtain ⟨hok,hno⟩ := storeField_tally r' buf
        constructor
        · intro s hs
          rw [hcb] at hs
          obtain ⟨h1,h2⟩ := hok s (Option.some.inj hs)
          exact ⟨h1,(h2.trans hurl) ▸ hr⟩
        · exact fun hn => hno fun s hs => hn s (hcb.trans (congrArg some hs))
    · have hcb : headerFieldCb buf r = some (r.bad 400) := by
        unfold headerFieldCb
        rw [if_pos hl,if_pos (Nat.not_lt.mp hroom)]
      refine ⟨fun s hs => ?_,fun _ => ?_⟩
      · rw [hcb] at hs
        simp [Request.bad] at hs
      · simp only [Tally.take]
        rw [if_neg (show ¬r.tally.lastHeaderElement = .FIELD from hl),if_neg fun h => hroom h.1]

theorem bodyCb_tally {g : Globals} {p : HttpParser} {buf : Bytes} {r s : Request}
    (h : bodyCb g p buf r = some (true,s)) : s.tally = r.tally ∧ urlBuffer s = urlBuffer r := by
  have hs := (writeBody_some (bodyCb_true.mp h).2.2).2
  rw [hs]
  exact ⟨rfl,rfl⟩

/-! ### Callbacks and bytes -/

/-- A client in the middle of a read has the tally of its request and of the marked bytes. -/
structure Tallied (t : Tally) (p : HttpParser) (m : Marked Client) : Prop where
  current : ∀ r, m.data.currentReq = some r → t = r.tallyWith m.mark ∧ (urlBuffer r).Sound
  idle : m.data.currentReq = none → p.state = .sStartReq ∧ t.refused = false

/-- The errors of the callbacks on the request line and on header lines. -/
def HttpErrno.ofHeader : HttpErrno → Bool
  | .CB_url | .CB_header_field | .CB_header_value => true
  | _ => false

section Calls
variable {g : Globals} {c e : Client} {r : Request} {p : HttpParser} {buf : Bytes} {k : Mark}

theorem Tallies.onCurrentReq {f : Request → Option (Bool × Request)} (hf : Tallies k buf f)
    (hr : c.currentReq = some r) (hs : (urlBuffer r).Sound) :
    (∀ e, onCurrentReq c f = (true,e) → ∃ s, e.currentReq = some s ∧
        s.tally = r.tally.take buf.length k ∧ (urlBuffer s).Sound) ∧
      ∀ e, onCurrentReq c f = (false,e) → (r.tally.take buf.length k).refused := by
  obtain ⟨hok,hno⟩ := hf r hs
  constructor
  · intro e he
    obtain ⟨r',s,hr',hfs,rfl⟩ := onCurrentReq_true.mp he
    cases hr.symm.trans hr'
    exact ⟨s,rfl,hok s hfs⟩
  · intro e he
    refine hno fun s hfs => ?_
    have hok' : Meinheld.onCurrentReq c f = (true,{ c with currentReq := some s }) :=
      onCurrentReq_true.mpr ⟨r,s,hr,hfs,rfl⟩
    rw [hok'] at he
    cases he

theorem onData_tally (k : Mark) (p : HttpParser) (buf : Bytes) (hr : c.currentReq = some r) (hs : (urlBuffer r).Sound) :
    (∀ e, (settings g).onData k p buf c = (true,e) → ∃ s, e.currentReq = some s ∧
        s.tally = r.tally.take buf.length k ∧ (urlBuffer s).Sound) ∧
      ∀ e, (settings g).onData k p buf c = (false,e) → k ≠ .body →
        (r.tally.take buf.length k).refused := by
  cases k with
  | url => exact ((urlCb_tallies buf).onCurrentReq hr hs).imp id fun h e he _ => h e he
  | headerField => exact ((headerFieldCb_tallies buf).onCurrentReq hr hs).imp id fun h e he _ => h e he
  | headerValue => exact ((headerValueCb_tallies buf).onCurrentReq hr hs).imp id fun h e he _ => h e he
  | body =>
    refine ⟨fun e he => ?_,fun e he hk => absurd rfl hk⟩
    obtain ⟨r',s,hr',hfs,rfl⟩ := onCurrentReq_true.mp he
    cases hr.symm.trans hr'
    obtain ⟨ht,hu⟩ := bodyCb_tally hfs
    exact ⟨s,rfl,ht,hu ▸ hs⟩

/-- A notify callback with a request, when it succeeds. -/
theorem onNotify_tally {n : Notify} (adv : ℕ) {t : Tally} (hr : c.currentReq = some r)
    (hs : (urlBuffer r).Sound) (ht : t = r.tally) (h : (settings g).onNotify n p c = (true,e)) :
    ∃ s, e.currentReq = some s ∧ t.act (.notify n adv p) = s.tally ∧ (urlBuffer s).Sound := by
  subst ht
  cases n with
  | messageBegin =>
    obtain ⟨-,rfl⟩ := Prod.mk.inj h
    exact ⟨_,rfl,rfl,newBuffer_sound⟩
  | messageComplete =>
    obtain ⟨-,rfl⟩ := Prod.mk.inj h
    exact ⟨r,hr,rfl,hs⟩
  | headersComplete =>
    have h' : onCurrentReq { c with keepAlive := httpShouldKeepAlive p }
        (fun req => some (headersComplete g p req)) = (true,e) := h
    obtain ⟨r',s,hr',hfs,rfl⟩ := onCurrentReq_true.mp h'
    cases hr.symm.trans hr'
    have hfs := Option.some.inj hfs
    unfold headersComplete Request.bad at hfs
    split at hfs
    · cases hfs
    obtain ⟨-,rfl⟩ := Prod.mk.inj hfs
    have hpath : (lastHeader { r with environ := requestLineEnv g p r, path := none }).path = none := by
      unfold lastHeader addHeader
      cases r.field <;> cases r.value <;> rfl
    refine ⟨_,rfl,?_,?_⟩
    · cases hf : r.field <;> cases hv : r.value <;>
        simp [Tally.act,Tally.headEnd,Tally.paired,Request.tally,urlBuffer,lastHeader,addHeader,hf,hv,
          newBuffer,Buffer.len]
    · simp only [urlBuffer,hpath]
      exact newBuffer_sound

theorem runActs_notify_tally {acts : List Act} (ha : ∀ a ∈ acts, a.isNotify) {ch : Byte}
    {m m' : Marked Client} {t : Tally} (hr : m.data.currentReq = some r) (hs : (urlBuffer r).Sound)
    (ht : t = r.tally) (h : runActs (settings g) ch acts m = .ok m') :
    ∃ s, m'.data.currentReq = some s ∧ acts.foldl Tally.act t = s.tally ∧ (urlBuffer s).Sound := by
  induction acts generalizing m t r with
  | nil =>
    cases h
    exact ⟨r,hr,ht,hs⟩
  | cons a as ih =>
    obtain ⟨ha,has⟩ := List.forall_mem_cons.mp ha
    cases a with
    | notify n adv p =>
      simp only [runActs] at h
      split at h
      next e he =>
        obtain ⟨s,hes,hts,hss⟩ := onNotify_tally adv hr hs ht he
        exact ih has (m := { m with data := e }) hes hss hts h
      · cases h
    | mark k => cases ha
    | data k incl adv p => cases ha

theorem runActs_notify_errno {acts : List Act} (ha : ∀ a ∈ acts, a.isNotify) {ch : Byte}
    {m : Marked Client} {x : HttpParser × Client × ℕ} (h : runActs (settings g) ch acts m = .error x) :
    x.1.httpErrno.ofHeader = false := by
  induction acts generalizing m with
  | nil => cases h
  | cons a as ih =>
    obtain ⟨ha,has⟩ := List.forall_mem_cons.mp ha
    cases a with
    | notify n adv p =>
      simp only [runActs] at h
      split at h
      · exact ih has h
      · cases h
        cases n <;> rfl
    | mark k => cases ha
    | data k incl adv p => cases ha

/-- A byte that ends what is marked, or is not marked. -/
theorem tallied_data {q : HttpParser} {t : Tally} (kb : Mark × Bytes) (adv : ℕ) (ch : Byte)
    (hr : c.currentReq = some r) (hs : (urlBuffer r).Sound) (ht : t = r.tally.take kb.2.length k) :
    (∀ m', runActs (settings g) ch [.data k false adv p] ⟨c,some kb⟩ = .ok m' →
        Tallied t q (m'.push ch)) ∧
      ∀ x, runActs (settings g) ch [.data k false adv p] ⟨c,some kb⟩ = .error x →
        x.1.httpErrno.ofHeader → t.refused := by
  obtain ⟨hok,hno⟩ := onData_tally (g := g) k p kb.2 hr hs
  simp only [runActs,Bool.false_eq_true,if_false]
  cases he : (settings g).onData k p kb.2 c with
  | mk b e =>
    cases b with
    | true =>
      refine ⟨fun m' hm' => ?_,fun x hx => (by cases hx)⟩
      cases hm'
      obtain ⟨s,hes,hts,hss⟩ := hok e he
      refine ⟨fun r' hr' => ?_,fun hn => ?_⟩
      · cases hes.symm.trans hr'
        exact ⟨ht.trans hts.symm,hss⟩
      · rw [show e.currentReq = none from hn] at hes
        cases hes
    | false =>
      refine ⟨fun m' hm' => (by cases hm'),fun x hx herr => ?_⟩
      cases hx
      rw [ht]
      refine hno e he fun hk => ?_
      subst hk
      cases herr

theorem Tallied.of_tally {t : Tally} {m : Marked Client} (hr : m.data.currentReq = some r)
    (ht : t = r.tallyWith m.mark) (hs : (urlBuffer r).Sound) : Tallied t p m where
  current r' hr' := by
    cases hr.symm.trans hr'
    exact ⟨ht,hs⟩
  idle hn := by
    rw [hr] at hn
    cases hn

theorem Tallied.congr {t : Tally} {p q : HttpParser} {m : Marked Client} (h : Tallied t p m)
    (hq : p.state = .sStartReq → q.state = .sStartReq) : Tallied t q m :=
  ⟨h.current,fun hn => (h.idle hn).imp_left hq⟩

/-- Callbacks without bytes, nothing being marked. -/
theorem tallied_notify {q : HttpParser} {acts : List Act} (ha : ∀ a ∈ acts, a.isNotify) (ch : Byte)
    {t : Tally} (hr : c.currentReq = some r) (hs : (urlBuffer r).Sound) (ht : t = r.tally) :
    (∀ m', runActs (settings g) ch acts ⟨c,none⟩ = .ok m' →
        Tallied (acts.foldl Tally.act t) q (m'.push ch)) ∧
      ∀ x, runActs (settings g) ch acts ⟨c,none⟩ = .error x → x.1.httpErrno.ofHeader = false := by
  refine ⟨fun m' hm' => ?_,fun x => runActs_notify_errno ha⟩
  obtain ⟨s,hes,hts,hss⟩ := runActs_notify_tally ha hr hs ht hm'
  refine .of_tally (m := m'.push ch) hes ?_ hss
  rw [hts,Marked.push,runActs_notify ha hm']
  rfl

/-- The last byte of a body. -/
theorem tallied_bodyLast {q : HttpParser} {n : Notify} {mk : Option (Mark × Bytes)} {t : Tally}
    {buf : Bytes} (ch : Byte) (hr : c.currentReq = some r) (hs : (urlBuffer r).Sound)
    (hmark : mk.or (some (.body,[])) = some (.body,buf)) (ht : t = r.tally) :
    (∀ m', runActs (settings g) ch [.mark .body,.data .body true 0 p,callbackNotify n q] ⟨c,mk⟩ = .ok m' →
        Tallied (t.act (callbackNotify n q)) q (m'.push ch)) ∧
      ∀ x, runActs (settings g) ch [.mark .body,.data .body true 0 p,callbackNotify n q] ⟨c,mk⟩ =
        .error x → x.1.httpErrno.ofHeader = false := by
  obtain ⟨hok,-⟩ := onData_tally (g := g) .body p (buf ++ [ch]) hr hs
  have hacts : ∀ a ∈ [callbackNotify n q], a.isNotify := by simp [Act.isNotify]
  simp only [runActs,hmark,if_true]
  cases he : (settings g).onData .body p (buf ++ [ch]) c with
  | mk b e =>
    cases b with
    | true =>
      obtain ⟨s,hes,hts,hss⟩ := hok e he
      exact tallied_notify hacts ch hes hss (ht.trans hts.symm)
    | false =>
      refine ⟨fun m' hm' => (by cases hm'),fun x hx => ?_⟩
      cases hx
      rfl

/-- A byte that is taken, with a request. -/
theorem tallied_turn {q : HttpParser} {ch : Byte} {acts : List Act} {m : Marked Client} {t : Tally}
    (hturn : Turn p acts q) (hm : m.Fits p.state) (hr : m.data.currentReq = some r)
    (ht : t = r.tallyWith m.mark) (hs : (urlBuffer r).Sound) {t' : Tally}
    (ht' : t' = match q.state.mark with
      | some k => (acts.foldl Tally.act t).take 1 k
      | none => acts.foldl Tally.act t) :
    (∀ m', runActs (settings g) ch acts m = .ok m' → Tallied t' q (m'.push ch)) ∧
      ∀ x, runActs (settings g) ch acts m = .error x → x.1.httpErrno.ofHeader → t'.refused := by
  obtain ⟨d,mk⟩ := m
  have hnone : p.state.mark = none → mk = none := fun h0 => by
    cases mk with
    | none => rfl
    | some kb => simp [Marked.Fits,h0] at hm
  cases hturn with
  | quiet h0 hacts hq =>
    cases hnone h0
    replace ht' : t' = acts.foldl Tally.act t := by
      rcases hq with hq | hq <;> rw [ht',hq]
      rfl
    obtain ⟨hok,hno⟩ := tallied_notify (g := g) (q := q) hacts ch hr hs ht
    exact ⟨fun m' hm' => ht' ▸ hok m' hm',fun x hx herr => by rw [hno x hx] at herr; cases herr⟩
  | @inside k _ hk hne hq =>
    refine ⟨fun m' hm' => ?_,fun x hx => (by cases hx)⟩
    cases hm'
    cases mk with
    | none => simp [Marked.Fits,hk,hne] at hm
    | some kb =>
      obtain ⟨k',buf⟩ := kb
      cases hk.symm.trans (show p.state.mark = some k' from hm)
      refine .of_tally hr ?_ hs
      rw [hq] at ht'
      rw [ht',ht]
      simp only [List.foldl_nil,Request.tallyWith,Tally.take_take,Marked.push,Option.map_some,
        List.length_append,List.length_singleton]
  | start h0 hq =>
    cases hnone h0
    refine ⟨fun m' hm' => ?_,fun x hx => (by cases hx)⟩
    cases hm'
    refine .of_tally hr ?_ hs
    rw [hq] at ht'
    rw [ht',ht]
    simp only [List.foldl_cons,List.foldl_nil,Tally.act,Request.tallyWith,Tally.take_take,
      Marked.push,Option.map_some,Option.none_or,List.nil_append,List.length_singleton]
  | @empty k adv r' _ h0 hq =>
    cases hnone h0
    have hcb := tallied_data (g := g) (q := q) (t := t') (k := k) (p := r') (k,[]) adv ch hr hs (by
        rw [hq] at ht'
        rw [ht',ht]
        rfl)
    exact hcb
  | @finish k adv r' _ hk hq hf =>
    rw [hq] at ht'
    have ht'' : t' = t := ht'
    cases mk with
    | none =>
      refine ⟨fun m' hm' => ?_,fun x hx => (by cases hx)⟩
      cases hm'
      exact .of_tally hr (ht''.trans ht) hs
    | some kb =>
      obtain ⟨k',buf⟩ := kb
      cases hk.symm.trans (show p.state.mark = some k' from hm)
      exact tallied_data (k,buf) adv ch hr hs (ht''.trans ht)
  | bodyByte hk hq hf =>
    rw [hq] at ht'
    refine ⟨fun m' hm' => ?_,fun x hx => (by cases hx)⟩
    cases hm'
    refine .of_tally hr ?_ hs
    cases mk with
    | none => exact ht'.trans ht
    | some kb =>
      obtain ⟨k',buf⟩ := kb
      cases hk.symm.trans (show p.state.mark = some k' from hm)
      exact ht'.trans ht
  | @bodyLast n r' _ hk hq hf =>
    rw [hq] at ht'
    obtain ⟨buf,hmark,htally⟩ : ∃ buf, mk.or (some (.body,[])) = some (.body,buf) ∧ t = r.tally := by
      cases mk with
      | none => exact ⟨[],rfl,ht⟩
      | some kb =>
        obtain ⟨k',buf⟩ := kb
        cases hk.symm.trans (show p.state.mark = some k' from hm)
        exact ⟨buf,rfl,ht⟩
    obtain ⟨hok,hno⟩ := tallied_bodyLast (g := g) (p := r') (q := q) (n := n) ch hr hs hmark htally
    exact ⟨fun m' hm' => ht' ▸ hok m' hm',fun x hx herr => by rw [hno x hx] at herr; cases herr⟩

/-- A byte that is taken. -/
theorem tallied_step {q : HttpParser} {ch : Byte} {acts : List Act} {m : Marked Client} {t : Tally}
    (h : step p ch = .next acts q) (hm : m.Fits p.state) (hc : Tallied t p m) :
    (∀ m', runActs (settings g) ch acts m = .ok m' → Tallied (t.next p ch) q (m'.push ch)) ∧
      ∀ x, runActs (settings g) ch acts m = .error x → x.1.httpErrno.ofHeader →
        (t.next p ch).refused := by
  cases hr : m.data.currentReq with
  | some r =>
    obtain ⟨ht,hs⟩ := hc.current r hr
    exact tallied_turn (step_turn h) hm hr ht hs (Tally.next_of_step h t)
  | none =>
    obtain ⟨hp,href⟩ := hc.idle hr
    have hmark : m.mark = none := by
      obtain ⟨d,_ | kb⟩ := m
      · rfl
      · have hk : p.state.mark = some kb.1 := hm
        rw [hp] at hk
        cases hk
    have hnext := Tally.next_of_step h t
    by_cases hch : ch = CR ∨ ch = LF
    · rcases step_lineEnd hp hch with h' | h'
      · obtain ⟨rfl,rfl⟩ := Step.next.inj (h.symm.trans h')
        refine ⟨fun m' hm' => ?_,fun x hx => (by cases hx)⟩
        cases hm'
        simp only [hp] at hnext
        refine ⟨fun r hr' => ?_,fun _ => ⟨hp,(congrArg Tally.refused hnext).trans href⟩⟩
        cases hr.symm.trans hr'
      · rw [h] at h'
        cases h'
    · have hb := step_begins hp hch
      rw [h] at hb
      have hq : q.state.mark = none ∨ q.state.mark = some .body := by
        have hturn := step_turn h
        cases hb
        cases hturn with
        | quiet _ _ hq => exact hq
      cases hb
      have hnext' : t.next p ch = {} := by
        rcases hq with hq | hq <;> rw [hnext,hq] <;>
          simp only [List.foldl_cons,List.foldl_nil,Tally.act,callbackNotify,Tally.take,href]
      refine ⟨fun m' hm' => ?_,fun x hx => (by cases hx)⟩
      cases hm'
      refine .of_tally (r := { environ := newEnviron g m.data }) rfl ?_ newBuffer_sound
      rw [hnext',Marked.push,hmark]
      rfl

/-- The bytes that are marked when a read ends. -/
theorem tallied_flush {m : Marked Client} {t : Tally} (hm : m.Fits p.state) (hc : Tallied t p m)
    (hp : p.httpErrno = .OK) : ((flushMark (settings g) p m).1.httpErrno = .OK →
        Tallied t p ⟨(flushMark (settings g) p m).2,entryMark p.state⟩) ∧
      ((flushMark (settings g) p m).1.httpErrno.ofHeader → t.refused) := by
  obtain ⟨d,_ | ⟨k,buf⟩⟩ := m
  · rw [entryMark_eq_none hm]
    refine ⟨fun _ => hc,fun herr => ?_⟩
    simp only [flushMark,hp] at herr
    cases herr
  · cases hr : d.currentReq with
    | none =>
      have hk : p.state.mark = some k := hm
      rw [(hc.idle hr).1] at hk
      cases hk
    | some r =>
      obtain ⟨ht,hs⟩ := hc.current r hr
      obtain ⟨hok,hno⟩ := onData_tally (g := g) k p buf hr hs
      simp only [flushMark]
      cases he : (settings g).onData k p buf d with
      | mk b e =>
        cases b with
        | true =>
          obtain ⟨s,hes,hts,hss⟩ := hok e he
          refine ⟨fun _ => .of_tally hes ?_ hss,fun herr => ?_⟩
          · by_cases hk : k = .body
            · subst hk
              rw [entryMark_eq_none (.inr hm)]
              exact ht.trans hts.symm
            · rw [entryMark_eq_some hm hk,ht]
              simp only [Request.tallyWith,hts,Tally.take_take,List.length_nil,Nat.add_zero]
          · simp only [hp] at herr
            cases herr
        | false =>
          refine ⟨fun herr => ?_,fun herr => ?_⟩
          · cases k <;> cases herr
          · rw [ht]
            refine hno e he fun hk => ?_
            subst hk
            cases herr

theorem Tallied.not_refused {m : Marked Client} {t : Tally} (hc : Tallied t p m)
    (hm : m.mark = none) : t.refused = false := by
  cases hr : m.data.currentReq with
  | none => exact (hc.idle hr).2
  | some r =>
    rw [(hc.current r hr).1,hm]
    rfl

/-- A client whose callback on a line has failed. -/
def Client.Refused (c : Client) : Prop :=
  c.aborted = true ∨ ∃ r, c.currentReq = some r ∧ (r.badRequestCode = 400 ∨ r.badRequestCode = 500)

def RefusesLine (f : Request → Option (Bool × Request)) : Prop :=
  ∀ r s, f r = some (false,s) → s.badRequestCode = 400 ∨ s.badRequestCode = 500

theorem storeField_refuses (buf : Bytes) : RefusesLine fun r => some (storeField r buf) := by
  intro r s h
  replace h := Option.some.inj h
  unfold storeField Request.bad at h
  repeat' split at h
  all_goals cases h
  all_goals exact .inl rfl

theorem headerFieldCb_refuses (buf : Bytes) : RefusesLine (headerFieldCb buf) := by
  intro r s h
  unfold headerFieldCb Request.bad at h
  repeat' split at h
  · cases h
    exact .inl rfl
  · obtain ⟨r',-,hs⟩ := Option.map_eq_some_iff.mp h
    exact storeField_refuses buf r' s (congrArg some hs)
  · exact storeField_refuses buf r s h

theorem headerValueCb_refuses (buf : Bytes) : RefusesLine (headerValueCb buf) := by
  intro r s h
  unfold headerValueCb Request.bad at h
  simp only at h
  split at h <;> cases h
  exact .inl rfl

theorem urlCb_refuses (buf : Bytes) : RefusesLine (urlCb buf) := by
  intro r s h
  unfold urlCb Request.bad at h
  simp only at h
  split at h <;> cases h
  · exact .inr rfl
  · exact .inl rfl

theorem RefusesLine.refused {f : Request → Option (Bool × Request)} (hf : RefusesLine f)
    (h : onCurrentReq c f = (false,e)) : e.Refused := by
  unfold onCurrentReq Client.abort at h
  split at h
  next x hx =>
    obtain ⟨ok,s⟩ := x
    obtain ⟨r,-,hr⟩ := Option.bind_eq_some_iff.mp hx
    cases h
    exact .inr ⟨s,rfl,hf r s hr⟩
  · cases h
    exact .inl rfl

theorem onData_refused (hk : k ≠ .body) (h : (settings g).onData k p buf c = (false,e)) : e.Refused := by
  cases k with
  | headerField => exact (headerFieldCb_refuses buf).refused h
  | headerValue => exact (headerValueCb_refuses buf).refused h
  | url => exact (urlCb_refuses buf).refused h
  | body => exact absurd rfl hk

end Calls

end Meinheld
