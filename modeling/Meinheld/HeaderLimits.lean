import Meinheld.HeaderLines
import Meinheld.Server

/-! The limits on header lines: when the callbacks refuse a request because of them. -/
namespace Meinheld

/-! ### What the limits say of some lines -/

/-- The number of lines with a value. -/
def valuedLines (lines : List CutLine) : ℕ := lines.countP fun l => l.value ≠ []

/-- The names that `header_field_cb` puts together: a line without a value leaves its name to the
next one. -/
def gluedNames : Bytes → List CutLine → List Bytes
  | acc, [] => [acc]
  | acc, l :: lines =>
    if l.value = [] then gluedNames (acc ++ l.nameBytes) lines
    else (acc ++ l.nameBytes) :: gluedNames [] lines

/-- The lines are beyond the limits. -/
def Exceeds (lines : List CutLine) : Prop :=
  LIMIT_REQUEST_FIELDS < valuedLines lines ∨ ∃ l ∈ lines,
    LIMIT_REQUEST_FIELD_SIZE < l.nameBytes.length ∨ LIMIT_REQUEST_FIELD_SIZE < l.valueBytes.length

/-- A name with the `HTTP_` before it is beyond the limit. -/
def LongKey (lines : List CutLine) : Prop :=
  ∃ name ∈ gluedNames [] lines, LIMIT_REQUEST_FIELD_SIZE < (getHttpHeaderKey name).length

/-- Each line is within the limits, and so are the lines before the last; but there are too many
lines and the keys are within the limit, or the other way round. -/
def Mistaken (lines : List CutLine) : Prop :=
  (∀ l ∈ lines, l.nameBytes.length ≤ LIMIT_REQUEST_FIELD_SIZE ∧
    l.valueBytes.length ≤ LIMIT_REQUEST_FIELD_SIZE) ∧
  valuedLines lines.dropLast ≤ LIMIT_REQUEST_FIELDS ∧
  (valuedLines lines ≤ LIMIT_REQUEST_FIELDS ↔ LongKey lines)

/-- A request that is answered with an error page and not handed to the application. -/
structure Request.Answered (req : Request) : Prop where
  code : req.badRequestCode = 400
  read : ∀ n c nread w, c.currentReq = some req → c.upgrade = false →
    ∃ c', parsedRequest n c nread w = .ret (.finish,c') w ∧ c'.currentReq = some req
  handled : ∀ g app c, handleRequest g req app c = do
    let c ← sendErrorPage { c with currentReq := some req, statusCode := 400 }
    pure (false,c)

theorem Request.answered_of_code {req : Request} (h : req.badRequestCode = 400) : req.Answered := by
  refine ⟨h,fun n c nread w hc hu => ?_,fun g app c => ?_⟩
  · have hq : c.queue ≠ [] := by simp [Client.queue,hc]
    have hread : parsedRequest n c nread = setReadError c 400 := by
      unfold parsedRequest
      simp only [hc,hu,Bool.false_eq_true,if_false,h]
      exact if_pos (.inr (by decide))
    have herror : setReadError c 400 = pure (.finish,setBadRequestCode { c with keepAlive := false } 400) := by
      unfold setReadError
      exact if_pos hq
    refine ⟨setBadRequestCode { c with keepAlive := false } 400,?_,?_⟩
    · rw [hread,herror]
      rfl
    · simp only [setBadRequestCode,hc,Option.map_some,← h]
  · unfold handleRequest
    simp only [h]
    rfl

/-- The calls end with a request that is answered with an error. -/
def CallsRefuse (calls : List HeaderCall) (req : Request) : Prop :=
  ∃ r, headerCalls calls req = some (false,r) ∧ r.Answered

/-- The limits are kept exactly. -/
def LimitsKept (req : Request) (lines : List CutLine) : Prop :=
  (Exceeds lines → CallsRefuse (lines.flatMap CutLine.calls) req) ∧
    (¬Exceeds lines → ∃ r, headerCalls (lines.flatMap CutLine.calls) req = some (true,r))

/-! ### The calls of one line -/

/-- A request after some lines, `n` of them with a value. -/
inductive Request.Lined (req : Request) (n : ℕ) : Bool → Bytes → Prop
  /-- The name `acc` waits for its value. -/
  | naming (acc : Bytes) (he : req.lastHeaderElement = .FIELD) (hvalue : req.value = none)
      (hnum : req.numHeaders = n)
      (hfield : ∀ buf, nextField req.field buf = getHttpHeaderKey (acc ++ buf))
      (hle : (getHttpHeaderKey acc).length ≤ LIMIT_REQUEST_FIELD_SIZE) : Request.Lined req n false acc
  /-- The last line waits to be added. -/
  | valued (he : req.lastHeaderElement = .VALUE) (hfield : req.field.isSome) (hvalue : req.value.isSome)
      (hnum : req.numHeaders + 1 = n) : Request.Lined req n true []

/-- Calls are taken exactly when `ok` holds, and refused otherwise. -/
def Decided (calls : List HeaderCall) (req : Request) (ok : Prop) (after : Request → Prop) : Prop :=
  (ok ∧ ∃ r, headerCalls calls req = some (true,r) ∧ after r) ∨ (¬ok ∧ CallsRefuse calls req)

theorem Decided.cons {a : HeaderCall} {calls : List HeaderCall} {req r : Request} {ok : Prop}
    {after : Request → Prop} (ha : a.apply req = some (true,r)) (h : Decided calls r ok after) :
    Decided (a :: calls) req ok after := by
  simpa only [Decided,CallsRefuse,headerCalls,ha] using h

theorem Decided.refuse {a : HeaderCall} {calls : List HeaderCall} {req : Request} {ok : Prop}
    {after : Request → Prop} (ha : a.apply req = some (req.bad 400)) (hno : ¬ok) :
    Decided (a :: calls) req ok after := by
  refine .inr ⟨hno,{ req with badRequestCode := 400 },?_,Request.answered_of_code rfl⟩
  simp only [headerCalls,ha,Request.bad]

theorem Decided.append {as bs : List HeaderCall} {req : Request} {ok ok' : Prop}
    {mid after : Request → Prop} (h : Decided as req ok mid)
    (h' : ∀ r, mid r → Decided bs r ok' after) : Decided (as ++ bs) req (ok ∧ ok') after := by
  rcases h with ⟨hok,r,hr,hmid⟩ | ⟨hno,r,hr,hans⟩
  · simp only [Decided,CallsRefuse,headerCalls_append hr]
    rcases h' r hmid with ⟨hok',h'⟩ | ⟨hno',h'⟩
    · exact .inl ⟨⟨hok,hok'⟩,h'⟩
    · exact .inr ⟨fun hb => hno' hb.2,h'⟩
  · refine .inr ⟨fun hb => hno hb.1,r,?_,hans⟩
    clear h' hno
    induction as generalizing req with
    | nil => cases hr
    | cons a as ih =>
      simp only [headerCalls,List.cons_append] at hr ⊢
      cases ha : a.apply req with
      | none => simp [ha] at hr
      | some x =>
        obtain ⟨b,x⟩ := x
        cases b with
        | true => exact ih (by simpa [ha] using hr)
        | false => simpa [ha] using hr

theorem Decided.congr {as : List HeaderCall} {req : Request} {ok ok' : Prop} {after : Request → Prop}
    (h : Decided as req ok after) (hiff : ok ↔ ok') : Decided as req ok' after := by
  simpa only [Decided,hiff] using h

theorem storeField_over {req : Request} {buf : Bytes}
    (h : LIMIT_REQUEST_FIELD_SIZE < (nextField req.field buf).length) :
    storeField req buf = req.bad 400 := by
  unfold storeField
  rw [checkFieldName_true,if_neg (by simp),if_pos h]

theorem fieldCalls_decided {req : Request} {n : ℕ} {acc : Bytes} (h : req.Lined n false acc)
    (pieces : List Bytes) : Decided (pieces.map .field) req
      ((getHttpHeaderKey (acc ++ pieces.flatten)).length ≤ LIMIT_REQUEST_FIELD_SIZE)
      (fun r => r.Lined n false (acc ++ pieces.flatten) ∧
        (req.field.isSome ∨ pieces ≠ [] → r.field.isSome)) := by
  induction pieces generalizing req acc with
  | nil =>
    rw [List.flatten_nil,List.append_nil]
    cases h with
    | naming acc he hvalue hnum hfield hle =>
      exact .inl ⟨hle,req,rfl,.naming acc he hvalue hnum hfield hle,fun h => h.resolve_right (· rfl)⟩
  | cons s pieces ih =>
    cases h with
    | naming acc he hvalue hnum hfield hle =>
      have hcall : HeaderCall.apply (.field s) req = some (storeField req s) := headerFieldCb_more he s
      rw [List.map_cons,List.flatten_cons,← List.append_assoc]
      by_cases hs : (getHttpHeaderKey (acc ++ s)).length ≤ LIMIT_REQUEST_FIELD_SIZE
      · rw [storeField_ok (by rw [hfield]; exact hs)] at hcall
        have hnext : Request.Lined { req with
            field := some (nextField req.field s), lastHeaderElement := .FIELD } n false (acc ++ s) := by
          refine .naming _ rfl hvalue hnum (fun buf => ?_) hs
          rw [getHttpHeaderKey_append,← hfield]
          rfl
        have hd := (ih hnext).cons hcall
        refine hd.imp_left fun ⟨hok,r,hr,hl,hsome⟩ => ⟨hok,r,hr,hl,fun _ => hsome (.inl rfl)⟩
      · rw [storeField_over (by rw [hfield]; exact not_le.mp hs)] at hcall
        refine .refuse hcall fun hle' => hs ?_
        rw [getHttpHeaderKey_append,List.length_append] at hle'
        omega

theorem valueCalls_decided {req : Request} {n : ℕ} (hf : req.field.isSome) (hnum : req.numHeaders = n)
    (hle : (req.value.getD []).length ≤ LIMIT_REQUEST_FIELD_SIZE) (pieces : List Bytes) :
    Decided (pieces.map .value) req
      ((req.value.getD [] ++ pieces.flatten).length ≤ LIMIT_REQUEST_FIELD_SIZE)
      (fun r => if pieces = [] then r = req else r.Lined (n + 1) true []) := by
  induction pieces generalizing req with
  | nil => exact .inl ⟨by simpa using hle,req,rfl,by simp⟩
  | cons s pieces ih =>
    rw [List.map_cons,List.flatten_cons,← List.append_assoc]
    by_cases hs : (req.value.getD [] ++ s).length ≤ LIMIT_REQUEST_FIELD_SIZE
    · have hcall : HeaderCall.apply (.value s) req = some (true,{ req with
          value := some (req.value.getD [] ++ s), lastHeaderElement := .VALUE }) := by
        simp only [HeaderCall.apply,headerValueCb]
        rw [if_neg (not_lt.mpr hs)]
      have hd := Decided.cons hcall (by exact ih hf hnum hs)
      refine hd.imp_left ?_
      rintro ⟨hok,r,hr,hl⟩
      refine ⟨hok,r,hr,?_⟩
      simp only [reduceCtorEq,if_false]
      by_cases hnil : pieces = []
      · rw [if_pos hnil] at hl
        rw [hl]
        exact .valued rfl hf rfl (congrArg (· + 1) hnum)
      · rwa [if_neg hnil] at hl
    · have hcall : HeaderCall.apply (.value s) req = some (req.bad 400) := by
        simp only [HeaderCall.apply,headerValueCb]
        rw [if_pos (not_le.mp hs)]
      refine .refuse hcall fun hle' => hs ?_
      rw [List.length_append] at hle'
      omega

def Request.AfterLine (n : ℕ) (acc : Bytes) (l : CutLine) (r : Request) : Prop :=
  if l.value = [] then r.Lined n false (acc ++ l.nameBytes) else r.Lined (n + 1) true []

theorem calls_eq (l : CutLine) : l.calls = (l.first :: l.more).map .field ++ l.value.map .value := rfl

theorem lineCalls_naming {req : Request} {n : ℕ} {acc : Bytes} (h : req.Lined n false acc) (l : CutLine) :
    Decided l.calls req ((getHttpHeaderKey (acc ++ l.nameBytes)).length ≤ LIMIT_REQUEST_FIELD_SIZE ∧
      l.valueBytes.length ≤ LIMIT_REQUEST_FIELD_SIZE) (Request.AfterLine n acc l) := by
  rw [calls_eq]
  refine (fieldCalls_decided h (l.first :: l.more)).append fun r ⟨hr,hsome⟩ => ?_
  have hr' := hr
  cases hr' with
  | naming acc' he hvalue hnum hfield hle =>
    have hd := valueCalls_decided (hsome (.inr (List.cons_ne_nil _ _))) hnum (by rw [hvalue]; simp) l.value
    rw [hvalue] at hd
    refine hd.imp_left fun ⟨hok,r',hr',hl⟩ => ⟨hok,r',hr',?_⟩
    unfold Request.AfterLine
    beta_reduce at hl
    by_cases hnil : l.value = []
    · rw [if_pos hnil] at hl ⊢
      rw [hl]
      exact hr
    · rw [if_neg hnil] at hl ⊢
      exact hl

/-- A line after one that waits: it is the next one that is counted. -/
theorem lineCalls_valued {req : Request} {n : ℕ} (h : req.Lined n true []) (l : CutLine) :
    Decided l.calls req (n ≤ LIMIT_REQUEST_FIELDS ∧
      (getHttpHeaderKey l.nameBytes).length ≤ LIMIT_REQUEST_FIELD_SIZE ∧
      l.valueBytes.length ≤ LIMIT_REQUEST_FIELD_SIZE) (Request.AfterLine n [] l) := by
  cases h with
  | valued he hfield hvalue hnum =>
    obtain ⟨key,hkey⟩ := Option.isSome_iff_exists.mp hfield
    obtain ⟨val,hval⟩ := Option.isSome_iff_exists.mp hvalue
    have hcalls : l.calls = .field l.first :: (l.more.map .field ++ l.value.map .value) := rfl
    by_cases hn : n ≤ LIMIT_REQUEST_FIELDS
    swap
    · rw [hcalls]
      refine .refuse ?_ fun hb => hn hb.1
      simp only [HeaderCall.apply,headerFieldCb]
      rw [if_pos (by simp [he]),if_pos (by omega)]
    have hcb : HeaderCall.apply (.field l.first) req = some (storeField { req with
        environ := mergeHeader req.environ key (cstr val)
        field := none
        value := none
        numHeaders := req.numHeaders + 1 } l.first) := by
      simp only [HeaderCall.apply,headerFieldCb,addHeader,hkey,hval]
      rw [if_pos (by simp [he]),if_neg (by omega)]
      rfl
    by_cases hfirst : (getHttpHeaderKey l.first).length ≤ LIMIT_REQUEST_FIELD_SIZE
    · -- the request is then as if it had waited for a name
      have hnaming : Request.Lined { req with
          environ := mergeHeader req.environ key (cstr val)
          field := none
          value := none
          lastHeaderElement := .FIELD
          numHeaders := req.numHeaders + 1 } n false [] :=
        .naming [] rfl rfl hnum (fun _ => rfl) (by decide)
      have hsame : headerCalls l.calls req = headerCalls l.calls { req with
          environ := mergeHeader req.environ key (cstr val)
          field := none
          value := none
          lastHeaderElement := .FIELD
          numHeaders := req.numHeaders + 1 } := by
        rw [hcalls,headerCalls,headerCalls,hcb]
        simp only [HeaderCall.apply]
        rw [headerFieldCb_more rfl,storeField_ok (by exact hfirst),storeField_ok (by exact hfirst)]
      have hd := lineCalls_naming hnaming l
      simp only [Decided,CallsRefuse,← hsame] at hd
      exact Decided.congr hd ⟨fun h => ⟨hn,h⟩,fun h => h.2⟩
    · rw [storeField_over (by exact not_le.mp hfirst)] at hcb
      refine .inr ⟨fun hb => hfirst ?_,_,by rw [hcalls,headerCalls,hcb]; rfl,Request.answered_of_code rfl⟩
      have hlen := hb.2.1
      rw [CutLine.nameBytes,getHttpHeaderKey_append,List.length_append] at hlen
      omega

/-! ### All the lines -/

/-- The lines are taken, from `n` lines with a value on. -/
def Accepts : ℕ → Bool → Bytes → List CutLine → Prop
  | _, _, _, [] => True
  | n, pending, acc, l :: lines =>
    (pending = true → n ≤ LIMIT_REQUEST_FIELDS) ∧
      (getHttpHeaderKey (acc ++ l.nameBytes)).length ≤ LIMIT_REQUEST_FIELD_SIZE ∧
      l.valueBytes.length ≤ LIMIT_REQUEST_FIELD_SIZE ∧
      if l.value = [] then Accepts n false (acc ++ l.nameBytes) lines else Accepts (n + 1) true [] lines

theorem linesCalls_decided {req : Request} {n : ℕ} {pending : Bool} {acc : Bytes}
    (h : req.Lined n pending acc) (lines : List CutLine) :
    Decided (lines.flatMap CutLine.calls) req (Accepts n pending acc lines) fun _ => True := by
  induction lines generalizing req n pending acc with
  | nil => exact .inl ⟨trivial,req,rfl,trivial⟩
  | cons l lines ih =>
    have hafter : ∀ r, Request.AfterLine n acc l r → Decided (lines.flatMap CutLine.calls) r
        (if l.value = [] then Accepts n false (acc ++ l.nameBytes) lines else Accepts (n + 1) true [] lines)
        fun _ => True := by
      intro r hr
      unfold Request.AfterLine at hr
      by_cases hv : l.value = []
      · rw [if_pos hv] at hr ⊢
        exact ih hr
      · rw [if_neg hv] at hr ⊢
        exact ih hr
    rw [List.flatMap_cons]
    cases pending with
    | false =>
      refine ((lineCalls_naming h l).append hafter).congr ?_
      simp [Accepts,and_assoc]
    | true =>
      have hacc : acc = [] := by cases h; rfl
      subst hacc
      refine ((lineCalls_valued h l).append hafter).congr ?_
      simp [Accepts,and_assoc]

theorem gluedNames_acc {acc : Bytes} {lines : List CutLine}
    (h : ∀ name ∈ gluedNames acc lines, (getHttpHeaderKey name).length ≤ LIMIT_REQUEST_FIELD_SIZE) :
    (getHttpHeaderKey acc).length ≤ LIMIT_REQUEST_FIELD_SIZE ∧
      ∀ l ∈ lines, l.nameBytes.length ≤ LIMIT_REQUEST_FIELD_SIZE := by
  have hlen : ∀ s t : Bytes, (getHttpHeaderKey (s ++ t)).length =
      (getHttpHeaderKey s).length + t.length := by simp [getHttpHeaderKey_append]
  induction lines generalizing acc with
  | nil => exact ⟨h acc (by simp [gluedNames]),by simp⟩
  | cons l lines ih =>
    simp only [gluedNames] at h
    split at h
    · obtain ⟨hacc,hls⟩ := ih h
      rw [hlen] at hacc
      exact ⟨by omega,List.forall_mem_cons.mpr ⟨by omega,hls⟩⟩
    · obtain ⟨hname,hrest⟩ := List.forall_mem_cons.mp h
      rw [hlen] at hname
      exact ⟨by omega,List.forall_mem_cons.mpr ⟨by omega,(ih hrest).2⟩⟩

/-- The lines that are taken: the last one is not counted. -/
theorem accepts_iff {n : ℕ} {pending : Bool} {acc : Bytes} {lines : List CutLine}
    (hn : pending = false → n ≤ LIMIT_REQUEST_FIELDS)
    (hacc : (getHttpHeaderKey acc).length ≤ LIMIT_REQUEST_FIELD_SIZE) :
    Accepts n pending acc lines ↔
      (lines ≠ [] → n + valuedLines lines.dropLast ≤ LIMIT_REQUEST_FIELDS) ∧
      (∀ name ∈ gluedNames acc lines, (getHttpHeaderKey name).length ≤ LIMIT_REQUEST_FIELD_SIZE) ∧
      ∀ l ∈ lines, l.valueBytes.length ≤ LIMIT_REQUEST_FIELD_SIZE := by
  induction lines generalizing n pending acc with
  | nil => simpa [Accepts,gluedNames] using hacc
  | cons l lines ih =>
    have hcount : (pending = true → n ≤ LIMIT_REQUEST_FIELDS) ↔ n ≤ LIMIT_REQUEST_FIELDS := by
      cases pending with
      | false => exact ⟨fun _ => hn rfl,fun h _ => h⟩
      | true => simp
    have hnil : (getHttpHeaderKey []).length ≤ LIMIT_REQUEST_FIELD_SIZE := by decide
    -- the lines before the last, when `l` is in front of others
    have hdrop : (n ≤ LIMIT_REQUEST_FIELDS ∧ (lines ≠ [] →
        n + (if l.value = [] then 0 else 1) + valuedLines lines.dropLast ≤ LIMIT_REQUEST_FIELDS)) ↔
        n + valuedLines (l :: lines).dropLast ≤ LIMIT_REQUEST_FIELDS := by
      cases lines with
      | nil => simp [valuedLines]
      | cons l' lines =>
        have hcons : valuedLines (l :: l' :: lines).dropLast =
            (if l.value = [] then 0 else 1) + valuedLines (l' :: lines).dropLast := by
          rw [List.dropLast_cons_cons]
          simp only [valuedLines,List.countP_cons]
          split <;> simp_all [add_comm]
        rw [hcons]
        simp only [ne_eq,reduceCtorEq,not_false_eq_true,forall_const]
        omega
    simp only [Accepts,hcount,ne_eq,reduceCtorEq,not_false_eq_true,forall_const,← hdrop,
      List.forall_mem_cons,gluedNames]
    by_cases hv : l.value = []
    · simp only [hv,if_true,Nat.add_zero]
      constructor
      · rintro ⟨hle,hname,hval,h⟩
        obtain ⟨h1,h2,h3⟩ := (ih (fun _ => hle) hname).mp h
        exact ⟨⟨hle,h1⟩,h2,hval,h3⟩
      · rintro ⟨⟨hle,h1⟩,h2,hval,h3⟩
        have hname := (gluedNames_acc h2).1
        exact ⟨hle,hname,hval,(ih (fun _ => hle) hname).mpr ⟨h1,h2,h3⟩⟩
    · simp only [hv,if_false,List.forall_mem_cons]
      have htrue : true = false → n + 1 ≤ LIMIT_REQUEST_FIELDS := nofun
      constructor
      · rintro ⟨hle,hname,hval,h⟩
        obtain ⟨h1,h2,h3⟩ := (ih htrue hnil).mp h
        exact ⟨⟨hle,h1⟩,⟨hname,h2⟩,hval,h3⟩
      · rintro ⟨⟨hle,h1⟩,⟨hname,h2⟩,hval,h3⟩
        exact ⟨hle,hname,hval,(ih htrue hnil).mpr ⟨h1,h2,h3⟩⟩

/-- The limits are kept exactly but for the lines that are mistaken: the last line is not counted,
and the `HTTP_` before a name is. -/
theorem limitsKept_iff {req : Request} (h : req.Bare) (lines : List CutLine) :
    LimitsKept req lines ↔ ¬Mistaken lines := by
  have hstart : req.Lined 0 false [] :=
    .naming [] h.lastHeaderElement h.value h.numHeaders (fun buf => by rw [h.field]; rfl) (by decide)
  have hd := (linesCalls_decided hstart lines).congr (accepts_iff (fun _ => Nat.zero_le _) (by decide))
  have hkeys : (∀ name ∈ gluedNames [] lines,
      (getHttpHeaderKey name).length ≤ LIMIT_REQUEST_FIELD_SIZE) ↔ ¬LongKey lines := by
    simp [LongKey]
  have hlast : valuedLines lines.dropLast ≤ valuedLines lines :=
    (List.dropLast_sublist lines).countP_le
  have hcount : (lines ≠ [] → 0 + valuedLines lines.dropLast ≤ LIMIT_REQUEST_FIELDS) ↔
      valuedLines lines.dropLast ≤ LIMIT_REQUEST_FIELDS := by
    rw [Nat.zero_add]
    refine ⟨fun hle => ?_,fun hle _ => hle⟩
    by_cases hnil : lines = []
    · subst hnil
      exact Nat.zero_le _
    · exact hle hnil
  rw [hcount,hkeys] at hd
  unfold LimitsKept Mistaken
  rcases hd with ⟨⟨hnum,hkey,hval⟩,r,hr,-⟩ | ⟨hno,hrefuse⟩
  · -- the calls are taken
    have hnotRefused : ¬CallsRefuse (lines.flatMap CutLine.calls) req := by
      rintro ⟨r',hr',-⟩
      cases hr.symm.trans hr'
    have hname := (gluedNames_acc (hkeys.mpr hkey)).2
    have hex : Exceeds lines ↔ LIMIT_REQUEST_FIELDS < valuedLines lines := by
      refine ⟨fun he => he.resolve_right ?_,.inl⟩
      rintro ⟨l,hl,hlt | hlt⟩
      · exact not_le.mpr hlt (hname l hl)
      · exact not_le.mpr hlt (hval l hl)
    have hwithin : ∀ l ∈ lines, l.nameBytes.length ≤ LIMIT_REQUEST_FIELD_SIZE ∧
        l.valueBytes.length ≤ LIMIT_REQUEST_FIELD_SIZE := fun l hl => ⟨hname l hl,hval l hl⟩
    rw [hex]
    constructor
    · rintro ⟨hkept,-⟩ ⟨-,-,hiff⟩
      have hlt : ¬LIMIT_REQUEST_FIELDS < valuedLines lines := fun hlt => hnotRefused (hkept hlt)
      exact hkey (hiff.mp (not_lt.mp hlt))
    · intro hm
      refine ⟨fun hlt => absurd ⟨hwithin,hnum,?_⟩ hm,fun _ => ⟨r,hr⟩⟩
      exact ⟨fun hle => absurd hlt (not_lt.mpr hle),fun hlong => absurd hlong hkey⟩
  · -- the calls are refused
    have hnotTaken : ¬∃ r, headerCalls (lines.flatMap CutLine.calls) req = some (true,r) := by
      rintro ⟨r',hr'⟩
      obtain ⟨r,hr,-⟩ := hrefuse
      cases hr.symm.trans hr'
    constructor
    · rintro ⟨-,hkept⟩ ⟨hwithin,hnum,hiff⟩
      have hlong : LongKey lines := by
        by_contra hkey
        exact hno ⟨hnum,hkey,fun l hl => (hwithin l hl).2⟩
      refine hnotTaken (hkept ?_)
      rintro (hlt | ⟨l,hl,hlt | hlt⟩)
      · exact not_le.mpr hlt (hiff.mpr hlong)
      · exact not_le.mpr hlt (hwithin l hl).1
      · exact not_le.mpr hlt (hwithin l hl).2
    · intro hm
      refine ⟨fun _ => hrefuse,fun hne => ?_⟩
      unfold Exceeds at hne
      push Not at hne
      obtain ⟨hle,hwithin⟩ := hne
      exfalso
      have hnum := hlast.trans hle
      refine hm ⟨hwithin,hnum,fun _ => ?_,fun _ => hle⟩
      by_contra hkey
      exact hno ⟨hnum,hkey,fun l hl => (hwithin l hl).2⟩

/-- A line `A: x`. -/
def shortLine : CutLine where
  first := ascii "A"
  value := [ascii "x"]

/-- A line with a cut name and a cut value, the line `A: x`, and one more with an empty value. -/
def severalLines : List CutLine :=
  [{ first := ascii "Acc", more := [[],ascii "ept"], value := [ascii "text/",ascii "html"] },shortLine,
    { first := ascii "B", value := [[]] }]

theorem limitsKept_several : LimitsKept {} severalLines := by
  refine (limitsKept_iff ⟨rfl,rfl,rfl,rfl⟩ _).mpr ?_
  rintro ⟨-,-,hiff⟩
  obtain ⟨name,hname,hlt⟩ := hiff.mp (by decide)
  revert name
  decide

/-- Of 129 lines none is refused. -/
theorem not_limitsKept : ¬LimitsKept {} (List.replicate 129 shortLine) := by
  intro h
  obtain ⟨r,hr,-⟩ := h.1 (.inl (by decide +kernel))
  have htaken : (headerCalls ((List.replicate 129 shortLine).flatMap CutLine.calls) {}).map (·.1) =
      some true := by decide +kernel
  rw [hr] at htaken
  cases htaken

end Meinheld
