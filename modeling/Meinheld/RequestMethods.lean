import Meinheld.FieldLines

/-! The request methods `http_parser.c` accepts: which bytes before the blank are taken for which
method. -/
namespace Meinheld

/-! ### The matcher -/

/-- The `switch` of `s_start_req`. -/
def methodFirst (c : Byte) : Option HttpMethod :=
  if c = 'C'.toUInt8 then some .CONNECT
  else if c = 'D'.toUInt8 then some .DELETE
  else if c = 'G'.toUInt8 then some .GET
  else if c = 'H'.toUInt8 then some .HEAD
  else if c = 'L'.toUInt8 then some .LOCK
  else if c = 'M'.toUInt8 then some .MKCOL
  else if c = 'N'.toUInt8 then some .NOTIFY
  else if c = 'O'.toUInt8 then some .OPTIONS
  else if c = 'P'.toUInt8 then some .POST
  else if c = 'R'.toUInt8 then some .REPORT
  else if c = 'S'.toUInt8 then some .SUBSCRIBE
  else if c = 'T'.toUInt8 then some .TRACE
  else if c = 'U'.toUInt8 then some .UNLOCK
  else none

def methodChar (m : HttpMethod) (i : ℕ) : Byte := (methodStrings m).getD i 0

/-- `s_req_method` on a byte that does not end the method. -/
def methodStep (m : HttpMethod) (i : ℕ) (c : Byte) : Option HttpMethod :=
  if c = 0 ∨ c = SP ∧ methodChar m i = 0 then none
  else if c = methodChar m i then some m
  else methodSwitch m i c

/-- `s_req_method` on the bytes before the blank that ends the method. -/
def methodRun : HttpMethod → ℕ → Bytes → Option HttpMethod
  | m,i,[] => if methodChar m i = 0 then some m else none
  | m,i,c :: s => (methodStep m i c).bind fun m' => methodRun m' (i + 1) s

def methodOf : Bytes → Option HttpMethod
  | c :: s => (methodFirst c).bind fun m => methodRun m 1 s
  | [] => none

/-! ### The spellings -/

/-- What is sent for a method: the names, but for `M - SEARCH`. -/
def spelling : HttpMethod → Bytes
  | .MSEARCH => ascii "M-- SEARCH"
  | m => methodStrings m

/-- The third byte of a method is compared for some methods only. -/
def thirdByte (m : HttpMethod) (c : Byte) : Bool :=
  match m with
  | .CONNECT | .COPY | .MKCOL | .MKACTIVITY | .SUBSCRIBE | .PURGE | .UNSUBSCRIBE =>
    c == methodChar m 2
  | .PUT => c != 0 && c != 'R'.toUInt8
  | .UNLOCK => c != 0 && c != 'S'.toUInt8
  | _ => c != 0

/-- The bytes that are taken for a method. -/
def spelledAs (m : HttpMethod) (w : Bytes) : Bool :=
  w.take 2 == (spelling m).take 2 && w.drop 3 == (spelling m).drop 3 && w[2]?.any (thirdByte m)

/-- The method while the second byte of `m` is read. -/
def viaFirst : HttpMethod → HttpMethod
  | .CHECKOUT | .COPY => .CONNECT
  | .MOVE | .MERGE | .MSEARCH | .MKACTIVITY => .MKCOL
  | .PROPFIND | .PROPPATCH | .PUT | .PATCH | .PURGE => .POST
  | .SEARCH => .SUBSCRIBE
  | .UNSUBSCRIBE => .UNLOCK
  | m => m

/-- The method while the third byte of `m` is read. -/
def viaSecond : HttpMethod → HttpMethod
  | .COPY => .CONNECT
  | .MKACTIVITY => .MKCOL
  | .PURGE => .PUT
  | .PROPPATCH => .PROPFIND
  | .UNSUBSCRIBE => .UNLOCK
  | m => m

/-- The method while the fourth byte of `m` is read. -/
def viaThird : HttpMethod → HttpMethod
  | .PROPPATCH => .PROPFIND
  | m => m

theorem some_of_ite {α : Type*} {c : Prop} [Decidable c] {a b : α} {o : Option α}
    (h : (if c then some a else o) = some b) : c ∧ b = a ∨ o = some b := by
  split at h
  next hc =>
    cases h
    exact .inl ⟨hc,rfl⟩
  next => exact .inr h

theorem methodFirst_spelled {m : HttpMethod} {c : Byte} (h : methodFirst c = some m) :
    c = (spelling m).getD 0 0 ∧ viaFirst m = m := by
  unfold methodFirst at h
  iterate 13
    obtain ⟨rfl,rfl⟩ | h := some_of_ite h
    · exact ⟨rfl,rfl⟩
  cases h

theorem methodSwitch_one {m m' : HttpMethod} {c : Byte} (h : methodSwitch m 1 c = some m') :
    c = (spelling m').getD 1 0 ∧ viaFirst m' = m ∧ viaSecond m' = m' := by
  unfold methodSwitch at h
  simp only [true_and,OfNat.one_ne_ofNat,false_and,if_false] at h
  split_ifs at h <;> cases h <;> subst_vars <;> exact ⟨rfl,rfl,rfl⟩

theorem methodSwitch_two {m m' : HttpMethod} {c : Byte} (hm : viaSecond m = m) (hc : c ≠ 0)
    (h : methodSwitch m 2 c = some m') :
    thirdByte m' c ∧ viaSecond m' = m ∧ viaFirst m' = viaFirst m ∧ viaThird m' = m' := by
  unfold methodSwitch at h
  simp only [true_and,OfNat.ofNat_ne_one,false_and,if_false,if_true] at h
  split_ifs at h with h1 h2 h3 h4 h5 h6 h7
  · cases h
    exact ⟨by simp [h2,thirdByte]; rfl,h1.symm,by rw [h1]; rfl,rfl⟩
  · cases h
    exact ⟨by simp [h4,thirdByte]; rfl,h3.symm,by rw [h3]; rfl,rfl⟩
  · cases h
    exact ⟨by simp [h6.2,thirdByte]; rfl,h6.1.symm,by rw [h6.1]; rfl,rfl⟩
  · cases h
    exact ⟨by simp [h7.2,thirdByte]; rfl,h7.1.symm,by rw [h7.1]; rfl,rfl⟩
  · -- any other byte passes
    cases h
    refine ⟨?_,hm,rfl,?_⟩
    · cases m <;> simp_all [thirdByte] <;> cases hm
    · cases m <;> first | rfl | cases hm

theorem methodSwitch_four {m' : HttpMethod} {c : Byte} (h : methodSwitch .PROPFIND 4 c = some m') :
    m' = .PROPPATCH ∧ c = 'P'.toUInt8 := by
  have h' : (if c = 'P'.toUInt8 then some .PROPPATCH else none) = some m' := by
    simpa [methodSwitch] using h
  obtain ⟨hc,hm⟩ | h' := some_of_ite h'
  · exact ⟨hm,hc⟩
  · cases h'

theorem methodStep_cases {m m' : HttpMethod} {i : ℕ} {c : Byte} (h : methodStep m i c = some m') :
    c ≠ 0 ∧ (m' = m ∧ c = methodChar m i ∨ methodSwitch m i c = some m') := by
  unfold methodStep at h
  split_ifs at h with h0 hc
  · cases h
    exact ⟨(not_or.mp h0).1,.inl ⟨rfl,hc⟩⟩
  · exact ⟨(not_or.mp h0).1,.inr h⟩

theorem methodStep_one {m m' : HttpMethod} (hm : viaFirst m = m) {c : Byte}
    (h : methodStep m 1 c = some m') :
    c = (spelling m').getD 1 0 ∧ viaFirst m' = m ∧ viaSecond m' = m' := by
  obtain ⟨-,⟨rfl,rfl⟩ | hsw⟩ := methodStep_cases h
  · cases m' <;> first | (cases hm; done) | exact ⟨rfl,rfl,rfl⟩
  · exact methodSwitch_one hsw

theorem methodStep_two {m m' : HttpMethod} (hm : viaSecond m = m) {c : Byte}
    (h : methodStep m 2 c = some m') :
    thirdByte m' c ∧ viaSecond m' = m ∧ viaFirst m' = viaFirst m ∧ viaThird m' = m' := by
  obtain ⟨hc,⟨rfl,rfl⟩ | hsw⟩ := methodStep_cases h
  · cases m' <;> first | (cases hm; done) | exact ⟨rfl,rfl,rfl,rfl⟩
  · exact methodSwitch_two hm hc hsw

theorem methodStrings_ne_zero (m : HttpMethod) : ∀ c ∈ methodStrings m, c ≠ 0 := by
  have h : (methodStrings m).all (· != 0) := by cases m <;> rfl
  simpa using h

theorem methodStrings_length (m : HttpMethod) : 3 ≤ (methodStrings m).length := by
  cases m <;> decide +kernel

theorem methodChar_eq_zero {m : HttpMethod} {i : ℕ} :
    methodChar m i = 0 ↔ (methodStrings m).length ≤ i := by
  constructor
  · intro h
    by_contra hlt
    rw [not_le] at hlt
    exact methodStrings_ne_zero m _ (List.getElem_mem hlt) (by simpa [methodChar,hlt] using h)
  · intro h
    simp [methodChar,h]

theorem methodStep_rest {m m' : HttpMethod} {i : ℕ} (hi : 3 ≤ i) (hm : m = .PROPFIND → i ≠ 4)
    {c : Byte} : methodStep m i c = some m' ↔ m' = m ∧ c = methodChar m i ∧ c ≠ 0 := by
  have hsw : methodSwitch m i c = none := by
    have h1 : i ≠ 1 := by omega
    have h2 : i ≠ 2 := by omega
    unfold methodSwitch
    simp only [h1,h2,false_and,if_false]
    repeat' split
    all_goals first | rfl | exact absurd (by tauto) (hm (by tauto))
  unfold methodStep
  rw [hsw]
  split_ifs with h0 hc
  · constructor
    · intro h
      cases h
    · rintro ⟨-,hc,hne⟩
      obtain h | ⟨-,h⟩ := h0
      · exact absurd h hne
      · exact absurd (hc.trans h) hne
  · rw [not_or] at h0
    simp [hc ▸ h0.1,hc,eq_comm]
  · simp [hc]

theorem methodRun_rest {m m' : HttpMethod} {i : ℕ} (hi : 3 ≤ i) (hm : m = .PROPFIND → 5 ≤ i)
    {s : Bytes} : methodRun m i s = some m' ↔ m' = m ∧ s = (methodStrings m).drop i := by
  induction s generalizing i with
  | nil =>
    simp only [methodRun,methodChar_eq_zero,Option.ite_none_right_eq_some,Option.some.injEq]
    rw [eq_comm (a := []),List.drop_eq_nil_iff,eq_comm (a := m),and_comm]
  | cons c s ih =>
    rw [methodRun,Option.bind_eq_some_iff]
    simp only [methodStep_rest hi fun h => by have := hm h; omega,methodChar]
    by_cases hlt : i < (methodStrings m).length
    · rw [List.drop_eq_getElem_cons hlt]
      have hget := methodStrings_ne_zero m _ (List.getElem_mem hlt)
      constructor
      · rintro ⟨_,⟨rfl,hc,-⟩,hrun⟩
        obtain ⟨rfl,rfl⟩ := (ih (by omega) fun h => by have := hm h; omega).mp hrun
        exact ⟨rfl,by simp [hc,hlt]⟩
      · rintro ⟨rfl,h⟩
        obtain ⟨rfl,rfl⟩ := List.cons.inj h
        exact ⟨_,⟨rfl,by simp [hlt],hget⟩,
          (ih (by omega) fun h => by have := hm h; omega).mpr ⟨rfl,rfl⟩⟩
    · rw [not_lt] at hlt
      rw [List.drop_eq_nil_of_le hlt]
      constructor
      · rintro ⟨_,⟨rfl,hc,h0⟩,-⟩
        exact absurd (by simpa [hlt] using hc) h0
      · rintro ⟨-,h⟩
        cases h

theorem spelling_drop (m : HttpMethod) : (spelling m).drop 3 = (methodStrings m).drop 3 := by
  cases m
  case MSEARCH => decide +kernel
  all_goals rfl

/-- The bytes behind the third one. -/
theorem methodRun_three {m m' : HttpMethod} (hm : viaThird m = m) {s : Bytes} :
    methodRun m 3 s = some m' ↔ viaThird m' = m ∧ s = (spelling m').drop 3 := by
  by_cases hp : m = .PROPFIND
  · subst hp
    constructor
    · intro h
      cases s with
      | nil => cases h
      | cons c s =>
        obtain ⟨m1,h1,hfive⟩ := Option.bind_eq_some_iff.mp h
        obtain ⟨rfl,rfl,-⟩ := (methodStep_rest le_rfl (by decide)).mp h1
        cases s with
        | nil => cases hfive
        | cons d s =>
          obtain ⟨m2,h2,hrest⟩ := Option.bind_eq_some_iff.mp hfive
          obtain ⟨-,⟨rfl,rfl⟩ | hsw⟩ := methodStep_cases h2
          · obtain ⟨rfl,rfl⟩ := (methodRun_rest (by decide) (by decide)).mp hrest
            exact ⟨rfl,by decide +kernel⟩
          · obtain ⟨rfl,rfl⟩ := methodSwitch_four hsw
            obtain ⟨rfl,rfl⟩ := (methodRun_rest (by decide) (by decide)).mp hrest
            exact ⟨rfl,by decide +kernel⟩
    · rintro ⟨hvia,rfl⟩
      cases m' <;> first | cases hvia; done | decide +kernel
  · have hvia : viaThird m' = m ↔ m' = m := by
      constructor
      · intro h
        cases m' <;> first | exact h | exact absurd h.symm hp
      · rintro rfl
        exact hm
    rw [methodRun_rest le_rfl fun h => absurd h hp,hvia,spelling_drop]
    exact and_congr_right fun h => by rw [h]

theorem methodRun_nil (m m' : HttpMethod) {i : ℕ} (hi : i < 3) : methodRun m i [] ≠ some m' := by
  have hlen := methodStrings_length m
  simp only [methodRun,methodChar_eq_zero]
  rw [if_neg (by omega)]
  intro h
  cases h

theorem take_two {l : Bytes} (h : 3 ≤ l.length) : l.take 2 = [l.getD 0 0,l.getD 1 0] := by
  obtain _ | ⟨a,_ | ⟨b,l⟩⟩ := l
  case nil | cons.nil => simp at h
  · rfl

theorem spelledAs_cons (m : HttpMethod) (a b c : Byte) (s : Bytes) : spelledAs m (a :: b :: c :: s) ↔
    a = (spelling m).getD 0 0 ∧ b = (spelling m).getD 1 0 ∧ thirdByte m c ∧
      s = (spelling m).drop 3 := by
  have hlen : 3 ≤ (spelling m).length := by cases m <;> decide +kernel
  rw [spelledAs,take_two hlen]
  simp
  tauto

theorem via_spelling (m : HttpMethod) :
    methodFirst ((spelling m).getD 0 0) = some (viaFirst m) ∧
      methodStep (viaFirst m) 1 ((spelling m).getD 1 0) = some (viaSecond m) := by
  cases m <;> decide +kernel

theorem viaFirst_spelling (m : HttpMethod) :
    (spelling (viaFirst m)).getD 0 0 = (spelling m).getD 0 0 := by
  cases m <;> rfl

theorem viaSecond_spelling (m : HttpMethod) :
    (spelling (viaSecond m)).getD 1 0 = (spelling m).getD 1 0 := by
  cases m <;> rfl

theorem viaThird_spelling (m : HttpMethod) (c : Byte) :
    (spelling (viaThird m)).getD 0 0 = (spelling m).getD 0 0 ∧
      (spelling (viaThird m)).getD 1 0 = (spelling m).getD 1 0 ∧
      thirdByte (viaThird m) c = thirdByte m c := by
  cases m <;> exact ⟨rfl,rfl,rfl⟩

theorem methodStep_wild {m : HttpMethod} {c : Byte} (hc : c ≠ 0)
    (h1 : m ≠ .CONNECT ∧ m ≠ .MKCOL ∧ m ≠ .SUBSCRIBE) (h2 : m = .PUT → c ≠ 'R'.toUInt8)
    (h3 : m = .UNLOCK → c ≠ 'S'.toUInt8) : methodStep m 2 c = some m := by
  have hsw : methodSwitch m 2 c = some m := by
    unfold methodSwitch
    rw [if_neg h1.1,if_neg h1.2.1,if_neg h1.2.2,if_neg (by simp),if_pos rfl,
      if_neg (fun h => h2 h.1 h.2),if_neg (fun h => h3 h.1 h.2)]
  have hlen := methodStrings_length m
  unfold methodStep
  rw [if_neg (by rw [methodChar_eq_zero]; simp [hc]; omega),hsw,ite_self]

theorem methodStep_thirdByte {m : HttpMethod} {c : Byte} (h : thirdByte m c) :
    methodStep (viaSecond m) 2 c = some (viaThird m) := by
  cases m
  case CONNECT | COPY | MKCOL | MKACTIVITY | SUBSCRIBE | PURGE | UNSUBSCRIBE =>
    obtain rfl := beq_iff_eq.mp h
    decide
  case PUT =>
    simp only [thirdByte,Bool.and_eq_true,bne_iff_ne] at h
    exact methodStep_wild h.1 (by decide) (fun _ => h.2) (fun h => by cases h)
  case UNLOCK =>
    simp only [thirdByte,Bool.and_eq_true,bne_iff_ne] at h
    exact methodStep_wild h.1 (by decide) (fun h => by cases h) (fun _ => h.2)
  all_goals
    refine methodStep_wild (m := viaSecond _) (bne_iff_ne.mp h) (by decide) ?_ ?_ <;>
      intro h <;> cases h

/-- Exactly the spellings are taken for a method. -/
theorem methodOf_eq_some {w : Bytes} {m : HttpMethod} : methodOf w = some m ↔ spelledAs m w := by
  constructor
  · intro h
    cases w with
    | nil => cases h
    | cons a w =>
      obtain ⟨m1,h1,hone⟩ := Option.bind_eq_some_iff.mp h
      obtain ⟨ha,hm1⟩ := methodFirst_spelled h1
      cases w with
      | nil => exact absurd hone (methodRun_nil _ _ (by decide))
      | cons b w =>
        obtain ⟨m2,h2,htwo⟩ := Option.bind_eq_some_iff.mp hone
        obtain ⟨hb,hm2,hs2⟩ := methodStep_one hm1 h2
        cases w with
        | nil => exact absurd htwo (methodRun_nil _ _ (by decide))
        | cons c s =>
          obtain ⟨m3,h3,hthree⟩ := Option.bind_eq_some_iff.mp htwo
          obtain ⟨hc,hm3,hf3,ht3⟩ := methodStep_two hs2 h3
          obtain ⟨rfl,rfl⟩ := (methodRun_three ht3).mp hthree
          obtain ⟨hv0,hv1,hv2⟩ := viaThird_spelling m c
          rw [spelledAs_cons,← hv0,← hv1,← hv2,← viaFirst_spelling,hf3,hm2,← viaSecond_spelling,hm3]
          exact ⟨ha,hb,hc,rfl⟩
  · intro h
    obtain _ | ⟨a,_ | ⟨b,_ | ⟨c,s⟩⟩⟩ := w
    case nil | nil | nil => simp [spelledAs] at h
    · obtain ⟨rfl,rfl,hc,rfl⟩ := (spelledAs_cons m a b c s).mp h
      obtain ⟨h1,h2⟩ := via_spelling m
      have hv : viaThird (viaThird m) = viaThird m := by cases m <;> rfl
      rw [methodOf,h1,Option.bind_some,methodRun,h2,Option.bind_some,methodRun,
        methodStep_thirdByte hc,Option.bind_some]
      exact (methodRun_three hv).mpr ⟨rfl,rfl⟩

/-! ### The parser -/

theorem elim_ite_some {α β : Type*} (c : Prop) [Decidable c] (a : α) (o : Option α) (e : β)
    (f : α → β) : (if c then some a else o).elim e f = if c then f a else o.elim e f := by
  split <;> rfl

theorem stepStartReq_eq (p : HttpParser) {ch : Byte} (h : ¬(ch = CR ∨ ch = LF)) :
    stepStartReq p ch = (methodFirst ch).elim
      (setErrno { p with flags := {}, contentLength := ULLONG_MAX } .INVALID_METHOD) fun m =>
        .next [callbackNotify .messageBegin { p with
            flags := {}, contentLength := ULLONG_MAX, method := m, index := 1, state := .sReqMethod }]
          { p with
            flags := {}, contentLength := ULLONG_MAX, method := m, index := 1, state := .sReqMethod } := by
  unfold stepStartReq methodFirst
  rw [if_neg h]
  simp only [elim_ite_some,Option.elim_none]

theorem step_methodFirst {p : HttpParser} (hp : p.state = .sStartReq)
    (hn : p.nread < HTTP_MAX_HEADER_SIZE) {c : Byte} {m : HttpMethod} (hm : methodFirst c = some m) :
    step p c = .next [callbackNotify .messageBegin { p with
        nread := p.nread + 1, flags := {}, contentLength := ULLONG_MAX, method := m, index := 1
        state := .sReqMethod }]
      { p with
        nread := p.nread + 1, flags := {}, contentLength := ULLONG_MAX, method := m, index := 1
        state := .sReqMethod } := by
  have hne : ¬(c = CR ∨ c = LF) := by
    have h1 : methodFirst CR = none := by decide
    have h2 : methodFirst LF = none := by decide
    rintro (rfl | rfl)
    · simp [h1] at hm
    · simp [h2] at hm
  rw [step_parsing (by rw [hp]; rfl) hn]
  unfold stepState
  simp only [hp]
  rw [stepStartReq_eq _ hne,hm]
  rfl

theorem stepState_reqMethod {p : HttpParser} (hp : p.state = .sReqMethod) (ch : Byte) :
    stepState p ch = stepReqMethod p ch := by
  unfold stepState
  simp only [hp]

theorem stepReqMethod_eq (p : HttpParser) {ch : Byte}
    (h : ¬(ch = SP ∧ methodChar p.method p.index = 0)) : stepReqMethod p ch =
      (methodStep p.method p.index ch).elim
        (setErrno p (if ch = 0 then .INVALID_METHOD else .UNKNOWN)) fun m =>
          .next [] { p with method := m, index := p.index + 1 } := by
  unfold stepReqMethod methodStep
  by_cases h0 : ch = 0
  · rw [if_pos h0,if_pos (.inl h0),if_pos h0]
    rfl
  rw [if_neg h0,if_neg (not_or.mpr ⟨h0,h⟩),if_neg h0]
  simp only
  rw [if_neg (by exact h)]
  by_cases hc : ch = methodChar p.method p.index
  · rw [if_pos hc,if_pos (by exact hc)]
    rfl
  rw [if_neg hc,if_neg (by exact hc)]
  cases methodSwitch p.method p.index ch <;> rfl

theorem step_methodStep {p : HttpParser} (hp : p.state = .sReqMethod)
    (hn : p.nread < HTTP_MAX_HEADER_SIZE) {c : Byte} {m : HttpMethod}
    (hm : methodStep p.method p.index c = some m) : step p c =
      .next [] { p with nread := p.nread + 1, method := m, index := p.index + 1 } := by
  have hend : ¬(c = SP ∧ methodChar p.method p.index = 0) := by
    intro h
    rw [methodStep,if_pos (.inr h)] at hm
    cases hm
  rw [step_parsing (by rw [hp]; rfl) hn,stepState_reqMethod (by exact hp),
    stepReqMethod_eq _ (by exact hend)]
  simp only [hm,Option.elim_some]

/-- The rest of a method and the blank behind it. -/
theorem trace_methodRun {s : Bytes} {p : HttpParser} (hp : p.state = .sReqMethod) {m : HttpMethod}
    (hm : methodRun p.method p.index s = some m)
    (hn : p.nread + (s.length + 1) ≤ HTTP_MAX_HEADER_SIZE) :
    trace p none (s ++ [SP]) = some ⟨[],{ p with
      nread := p.nread + (s.length + 1)
      index := p.index + (s.length + 1)
      method := m
      state := .sReqSpacesBeforeUrl },none⟩ := by
  induction s generalizing p with
  | nil =>
    simp only [methodRun,Option.ite_none_right_eq_some,Option.some.injEq] at hm
    have hstep : step p SP = .next [] { p with
        nread := p.nread + 1, state := .sReqSpacesBeforeUrl, index := p.index + 1 } := by
      rw [step_parsing (by rw [hp]; rfl) (by omega),stepState_reqMethod (by exact hp),stepReqMethod,
        if_neg (by decide)]
      exact if_pos ⟨rfl,hm.1⟩
    rw [List.nil_append,trace_one hstep,← hm.2]
    rfl
  | cons c s ih =>
    rw [List.length_cons] at hn
    obtain ⟨m',hstep,hrun⟩ := Option.bind_eq_some_iff.mp hm
    have hnext := step_methodStep hp (by omega) hstep
    rw [List.cons_append,trace_quiet hnext]
    have h := ih (p := { p with nread := p.nread + 1, method := m', index := p.index + 1 }) hp hrun
      (by simp only; omega)
    simpa [Marking.push,Nat.add_assoc,Nat.add_comm 1] using h

/-- A method and the blank behind it, where a message can begin. -/
theorem trace_method {w : Bytes} {p : HttpParser} (hp : p.state = .sStartReq) {m : HttpMethod}
    (hm : methodOf w = some m) (hn : p.nread + (w.length + 1) ≤ HTTP_MAX_HEADER_SIZE) :
    trace p none (w ++ [SP]) = some ⟨[.messageBegin],{ p with
      nread := p.nread + (w.length + 1)
      flags := {}
      contentLength := ULLONG_MAX
      index := w.length + 1
      method := m
      state := .sReqSpacesBeforeUrl },none⟩ := by
  cases w with
  | nil => cases hm
  | cons c s =>
    rw [List.length_cons] at hn ⊢
    obtain ⟨m1,hfirst,hrun⟩ := Option.bind_eq_some_iff.mp hm
    have hstep := step_methodFirst hp (by omega) hfirst
    have hrest := trace_methodRun (p := { p with
      nread := p.nread + 1, flags := {}, contentLength := ULLONG_MAX, method := m1, index := 1
      state := .sReqMethod }) rfl hrun (by simp only; omega)
    rw [List.cons_append,trace_cons hstep]
    simp only [actCalls,Marking.push,Option.map_none,hrest]
    simp [Nat.add_assoc,Nat.add_comm 1,Callout.ofNotify]

/-- The method the parser takes some bytes for: they are all read in `s_req_method`, and the blank
behind them ends it. -/
def readsMethod : HttpParser → Bytes → Option HttpMethod
  | p,[] =>
    match step p SP with
    | .next _ q => if q.state = .sReqSpacesBeforeUrl then some q.method else none
    | _ => none
  | p,c :: s =>
    match step p c with
    | .next _ q => if q.state = .sReqMethod then readsMethod q s else none
    | _ => none

theorem readsMethod_eq {s : Bytes} {p : HttpParser} (hp : p.state = .sReqMethod)
    (hn : p.nread + s.length < HTTP_MAX_HEADER_SIZE) :
    readsMethod p s = methodRun p.method p.index s := by
  induction s generalizing p with
  | nil =>
    rw [readsMethod,methodRun,step_parsing (by rw [hp]; rfl) hn,stepState_reqMethod (by exact hp)]
    by_cases hend : methodChar p.method p.index = 0
    · rw [stepReqMethod,if_neg (by decide)]
      simp only
      rw [if_pos ⟨trivial,hend⟩,if_pos hend]
      rfl
    · rw [stepReqMethod_eq _ (by simpa using hend),if_neg hend]
      cases h : methodStep p.method p.index SP <;> simp [hp,setErrno]
  | cons c s ih =>
    rw [List.length_cons] at hn
    rw [readsMethod,methodRun,step_parsing (by rw [hp]; rfl) (by omega),
      stepState_reqMethod (by exact hp)]
    by_cases hend : c = SP ∧ methodChar p.method p.index = 0
    · have hnone : methodStep p.method p.index c = none := if_pos (.inr hend)
      rw [hnone,stepReqMethod,if_neg (by rw [hend.1]; decide)]
      simp only
      rw [if_pos (by exact hend)]
      rfl
    · rw [stepReqMethod_eq _ (by exact hend)]
      cases h : methodStep p.method p.index c with
      | none => simp [setErrno]
      | some m =>
        have hrest := ih (p := { p with nread := p.nread + 1, method := m, index := p.index + 1 }) hp
          (by simp only; omega)
        simpa [h,hp] using hrest

/-- Where a message can begin, a method is read from its spellings and from nothing else. -/
theorem accepted_methods {p : HttpParser} (hp : p.state = .sStartReq) {w : Bytes}
    (hn : p.nread + w.length < HTTP_MAX_HEADER_SIZE) (m : HttpMethod) :
    readsMethod p w = some m ↔ spelledAs m w := by
  have hmethod : readsMethod p w = methodOf w := by
    cases w with
    | nil =>
      rw [readsMethod,step_parsing (by rw [hp]; rfl) hn]
      unfold stepState
      simp only [hp]
      rw [stepStartReq_eq _ (by decide),show methodFirst SP = none by decide]
      rfl
    | cons c s =>
      rw [List.length_cons] at hn
      rw [readsMethod,methodOf,step_parsing (by rw [hp]; rfl) (by omega)]
      unfold stepState
      simp only [hp]
      by_cases hc : c = CR ∨ c = LF
      · rw [stepStartReq,if_pos hc]
        obtain rfl | rfl := hc
        · rw [show methodFirst CR = none by decide]
          simp
        · rw [show methodFirst LF = none by decide]
          simp
      · rw [stepStartReq_eq _ hc]
        cases h : methodFirst c with
        | none => rfl
        | some m1 =>
          simp only [Option.elim_some,if_true,Option.bind_some]
          exact readsMethod_eq rfl (by simp only; omega)
  rw [hmethod,methodOf_eq_some]

/-- `GEX` is a `GET`, and no method is sent as `M-SEARCH`. -/
theorem accepted_methods_get : readsMethod {} (ascii "GEX") = some .GET ∧
    readsMethod {} (ascii "M-SEARCH") ≠ some .MSEARCH :=
  ⟨(accepted_methods rfl (by decide) _).mpr (by decide +kernel),
    fun h => absurd ((accepted_methods rfl (by decide) _).mp h) (by decide +kernel)⟩

end Meinheld
