import Meinheld.Response

/-! The status strings that `start_response` accepts. -/
namespace Meinheld

/-! ### Decimal integers -/

def numeral (s : Bytes) : Option ℕ :=
  if s ≠ [] ∧ s.all isNum then some (s.foldl (fun n c => n * 10 + (c.toNat - 48)) 0) else none

/-- The integer that decimal digits after an optional sign are. -/
def decimalInteger : Bytes → Option ℤ
  | [] => none
  | c :: s =>
    if c = '-'.toUInt8 then (numeral s).map fun n : ℕ => -(n : ℤ)
    else if c = '+'.toUInt8 then (numeral s).map (fun n : ℕ => (n : ℤ))
    else (numeral (c :: s)).map (fun n : ℕ => (n : ℤ))

theorem strtolDigits_eq (s : Bytes) (n : ℕ) : strtolDigits n s =
    ((s.takeWhile isNum).foldl (fun n c => n * 10 + (c.toNat - 48)) n,s.dropWhile isNum) := by
  induction s generalizing n with
  | nil => rfl
  | cons c s ih =>
    unfold strtolDigits
    cases h : isNum c with
    | true => simp [h,ih]
    | false => simp [h]

theorem dropWhile_eq_nil_iff_all {s : Bytes} : s.dropWhile isNum = [] ↔ s.all isNum := by
  simp [List.dropWhile_eq_nil_iff]

/-- What `strtol` makes of the bytes after white space and a sign. -/
def strtolValue (neg : Bool) (digits : Bytes) : Option ℤ × Bytes :=
  let d := strtolDigits 0 digits
  let l : ℤ := if neg then -d.1 else d.1
  (if -2 ^ 63 ≤ l ∧ l < 2 ^ 63 then some l else none,d.2)

theorem strtol_eq (s : Bytes) : strtol s = match (strtolSign (s.dropWhile isspace)).2 with
    | [] => (some 0,s)
    | c :: _ => if !isNum c then (some 0,s) else
        strtolValue (strtolSign (s.dropWhile isspace)).1 (strtolSign (s.dropWhile isspace)).2 := by
  unfold strtol strtolValue
  rfl

theorem strtolValue_eq {neg : Bool} {c : Byte} {s : Bytes} {v : ℤ} :
    strtolValue neg (c :: s) = (some v,[]) ↔ ∃ n, numeral (c :: s) = some n ∧
      v = (if neg then -(n : ℤ) else n) ∧ -2 ^ 63 ≤ v ∧ v < 2 ^ 63 := by
  unfold strtolValue numeral
  simp only [strtolDigits_eq,Prod.mk.injEq,dropWhile_eq_nil_iff_all]
  constructor
  · rintro ⟨hv,hall⟩
    have htake : (c :: s).takeWhile isNum = c :: s :=
      List.takeWhile_eq_self_iff.mpr (by simpa using hall)
    rw [htake] at hv
    obtain ⟨hr,hv⟩ := Option.ite_none_right_eq_some.mp hv
    obtain rfl := Option.some.inj hv
    exact ⟨_,if_pos ⟨by simp,hall⟩,rfl,hr⟩
  · rintro ⟨n,hn,rfl,hr⟩
    split at hn
    next hall =>
      obtain rfl := Option.some.inj hn
      have htake : (c :: s).takeWhile isNum = c :: s :=
        List.takeWhile_eq_self_iff.mpr (by simpa using hall.2)
      rw [htake]
      exact ⟨if_pos hr,hall.2⟩
    · cases hn

theorem numeral_of_not_isNum {c : Byte} {s : Bytes} (hc : isNum c = false) : numeral (c :: s) = none := by
  unfold numeral
  rw [if_neg]
  simp [hc]

/-- A value other than 0 that `strtol` reads to the end is the integer after the white space. -/
theorem strtol_eq_some_iff {s : Bytes} {v : ℤ} (hv : v ≠ 0) : strtol s = (some v,[]) ↔
    decimalInteger (s.dropWhile isspace) = some v ∧ -2 ^ 63 ≤ v ∧ v < 2 ^ 63 := by
  rw [strtol_eq]
  have hzero : ∀ t : Bytes, (some (0 : ℤ),t) = (some v,[]) ↔ False := by
    intro t
    refine iff_false_intro fun h => hv ?_
    cases h
    rfl
  have hnum : ∀ (neg : Bool) (t : Bytes),
      (match t with
        | [] => (some 0,s)
        | c :: _ => if !isNum c then (some 0,s) else strtolValue neg t) = (some v,[]) ↔
      ∃ n, numeral t = some n ∧ v = (if neg then -(n : ℤ) else n) ∧ -2 ^ 63 ≤ v ∧ v < 2 ^ 63 := by
    intro neg t
    cases t with
    | nil => simp [hzero,numeral]
    | cons c t =>
      cases hc : isNum c with
      | true =>
        simp only [hc,Bool.not_true,Bool.false_eq_true,if_false]
        exact strtolValue_eq
      | false => simp [hc,hzero,numeral_of_not_isNum hc]
  have hswap : ∀ (t : Bytes) (f : ℕ → ℤ),
      (∃ n, numeral t = some n ∧ v = f n ∧ -2 ^ 63 ≤ v ∧ v < 2 ^ 63) ↔
        (∃ n, numeral t = some n ∧ f n = v) ∧ -2 ^ 63 ≤ v ∧ v < 2 ^ 63 := by
    intro t f
    constructor
    · rintro ⟨n,hn,he,hr⟩
      exact ⟨⟨n,hn,he.symm⟩,hr⟩
    · rintro ⟨⟨n,hn,he⟩,hr⟩
      exact ⟨n,hn,he.symm,hr⟩
  rw [hnum]
  cases s.dropWhile isspace with
  | nil => simp [strtolSign,numeral,decimalInteger]
  | cons c t =>
    by_cases hm : c = '-'.toUInt8
    · rw [show strtolSign (c :: t) = (true,t) from if_pos hm,
        show decimalInteger (c :: t) = _ from if_pos hm,Option.map_eq_some_iff]
      exact hswap _ _
    · by_cases hp : c = '+'.toUInt8
      · rw [show strtolSign (c :: t) = (false,t) from (if_neg hm).trans (if_pos hp),
          show decimalInteger (c :: t) = _ from (if_neg hm).trans (if_pos hp),
          Option.map_eq_some_iff]
        exact hswap _ _
      · rw [show strtolSign (c :: t) = (false,c :: t) from (if_neg hm).trans (if_neg hp),
          show decimalInteger (c :: t) = _ from (if_neg hm).trans (if_neg hp),
          Option.map_eq_some_iff]
        exact hswap _ _

/-! ### The calls -/

/-- What stands before the first blank. -/
def beforeBlank (s : Bytes) : Bytes := s.takeWhile (· ≠ SP)

/-- The bytes of a string whose characters are all in latin-1. -/
def latin1 (s : List ℕ) : Bytes := s.map UInt8.ofNat

/-- A status string with that code. -/
def ValidStatus (s : List ℕ) (code : ℕ) : Prop :=
  (∀ c ∈ s, c < 256) ∧ decimalInteger (beforeBlank (latin1 s)) = some (code : ℤ) ∧ 100 ≤ code ∧ code ≤ 999

/-- `start_response` takes the valid status strings, and raises an exception for the others. -/
def StartsExactly (c : Client) (s : List ℕ) (headers : List HeaderItem) (excInfo : Bool) : Prop :=
  (∃ code c', ValidStatus s code ∧ c'.statusCode = code ∧
      responseObjectCall c { status := .str s, headers := some headers, excInfo } = .returned c') ∨
    (∀ code, ¬ValidStatus s code) ∧
      ∃ e, responseObjectCall c { status := .str s, headers := some headers, excInfo } = .raised e

/-- Up to a NUL and after white space there is another integer than the status string has, or one
that an `int` does not hold. -/
def Misread (s : List ℕ) : Prop :=
  ∃ v, decimalInteger ((beforeBlank (cstr (latin1 s))).dropWhile isspace) = some v ∧
    -2 ^ 63 ≤ v ∧ v < 2 ^ 63 ∧ 100 ≤ Int.bmod v (2 ^ 32) ∧ Int.bmod v (2 ^ 32) ≤ 999 ∧
    (0 ∈ beforeBlank (latin1 s) ∨ (beforeBlank (latin1 s)).head?.any isspace ∨
      Int.bmod v (2 ^ 32) ≠ v)

theorem statusCodeOf_eq_some_iff {bytes : Bytes} {code : ℕ} :
    statusCodeOf bytes = some code ↔ readStatus bytes = .ok code := by
  unfold statusCodeOf
  cases readStatus bytes <;> simp [Except.toOption]

theorem readStatus_eq_ok {bytes : Bytes} {code : ℕ} : readStatus bytes = .ok code ↔
    ∃ v, decimalInteger ((beforeBlank (cstr bytes)).dropWhile isspace) = some v ∧ -2 ^ 63 ≤ v ∧
      v < 2 ^ 63 ∧ Int.bmod v (2 ^ 32) = code ∧ 100 ≤ code ∧ code ≤ 999 := by
  have hne : ∀ {v : ℤ} {n : ℕ}, Int.bmod v (2 ^ 32) = n → 100 ≤ n → v ≠ 0 := by
    rintro v n hv hn rfl
    simp at hv
    omega
  unfold readStatus
  simp only
  split
  next hline =>
    rw [hline]
    simp [beforeBlank,decimalInteger]
  · constructor
    · intro h
      split at h
      · cases h
      next l hl =>
        split at h
        · cases h
        next hrest =>
          split at h
          · cases h
          next hr =>
            rw [not_or] at hr
            obtain ⟨hlo,hhi⟩ := hr
            rw [not_not] at hrest
            obtain rfl := Except.ok.inj h
            have hcode : Int.bmod l (2 ^ 32) = ((Int.bmod l (2 ^ 32)).toNat : ℤ) := by omega
            obtain ⟨hd,hr⟩ := (strtol_eq_some_iff (hne hcode (by omega))).mp (Prod.ext hl hrest)
            exact ⟨l,hd,hr.1,hr.2,hcode,by omega,by omega⟩
    · rintro ⟨v,hd,h1,h2,hcode,hlo,hhi⟩
      have hs : strtol ((cstr bytes).takeWhile (· ≠ SP)) = (some v,[]) :=
        (strtol_eq_some_iff (hne hcode hlo)).mpr ⟨hd,h1,h2⟩
      simp only [hs,hcode]
      have hrange : ¬((code : ℤ) < 100 ∨ (code : ℤ) > 999) := by omega
      rw [if_neg (by simp),if_neg hrange]
      rfl

/-- The copy that `start_response` makes of a status has room for it, with the NUL. -/
def Copied (bytes : Bytes) : Prop := ∃ n ∈ byteLen bytes, (cstr bytes).length < statusRoom n

instance (bytes : Bytes) : Decidable (Copied bytes) :=
  inferInstanceAs (Decidable (∃ n ∈ byteLen bytes, (cstr bytes).length < statusRoom n))

theorem byteLen_of_lt {bytes : Bytes} (h : bytes.length < 2 ^ 31) :
    byteLen bytes = some bytes.length := by
  have hmod : bytes.length % 2 ^ 32 = bytes.length := Nat.mod_eq_of_lt (by omega)
  unfold byteLen
  rw [hmod]
  exact if_pos h

/-- A status of less than 2 GiB is copied. -/
theorem copied_of_lt {bytes : Bytes} (h : bytes.length < 2 ^ 31) : Copied bytes := by
  have hcut : (cstr bytes).length ≤ bytes.length := (List.takeWhile_prefix _).length_le
  refine ⟨bytes.length,byteLen_of_lt h,?_⟩
  unfold statusRoom
  omega

/-- A call on a client without headers, with the bytes of a latin-1 string. -/
theorem responseObjectCall_latin1 {c : Client} (hc : c.headers = none) {s : List ℕ}
    (hs : ∀ ch ∈ s, ch < 256) (headers : List HeaderItem) (excInfo : Bool) :
    responseObjectCall c { status := .str s, headers := some headers, excInfo } =
      takeStatus c headers (latin1 s) := by
  have hb : wsgiToBytes (.str s) = some (latin1 s) := if_pos (by simpa using hs)
  unfold responseObjectCall
  simp only [hc,Option.isSome_none,Bool.false_eq_true,false_and,if_false,hb]

section Copy
variable (c : Client) (headers : List HeaderItem) {bytes : Bytes}

theorem takeStatus_copied (h : Copied bytes) : ∃ n ∈ byteLen bytes, takeStatus c headers bytes =
    match readStatus bytes with
    | .error e => .raised e
    | .ok code => .returned { c with
        statusCode := code
        headers := some headers
        httpStatus := createStatus (bytes.take n) c.httpParser.httpMinor } := by
  obtain ⟨n,hn,hlt⟩ := h
  refine ⟨n,hn,?_⟩
  unfold takeStatus
  rw [Option.mem_def.mp hn]
  exact if_neg (by omega)

theorem takeStatus_not_copied (h : ¬Copied bytes) : takeStatus c headers bytes =
    if byteLen bytes = none then .raised .systemError else .crash := by
  unfold takeStatus
  cases hn : byteLen bytes with
  | none => rfl
  | some n =>
    have hover : statusRoom n < (cstr bytes).length + 1 := by
      by_contra hno
      exact h ⟨n,hn,by omega⟩
    exact if_pos hover

end Copy

theorem responseObjectCall_not_latin1 {c : Client} (hc : c.headers = none) {s : List ℕ}
    (hs : ¬∀ ch ∈ s, ch < 256) (headers : List HeaderItem) (excInfo : Bool) :
    responseObjectCall c { status := .str s, headers := some headers, excInfo } = .crash := by
  have hb : wsgiToBytes (.str s) = none := if_neg (by simpa using hs)
  unfold responseObjectCall
  simp only [hc,Option.isSome_none,Bool.false_eq_true,false_and,if_false,hb]

theorem numeral_all {s : Bytes} {n : ℕ} (h : numeral s = some n) : s.all isNum := by
  unfold numeral at h
  split at h
  next hs => exact hs.2
  · cases h

theorem decimalInteger_plain {s : Bytes} {v : ℤ} (h : decimalInteger s = some v) :
    0 ∉ s ∧ s.head?.any isspace = false := by
  have hnum : ∀ b : Byte, isNum b → b ≠ 0 ∧ isspace b = false := by decide +kernel
  have hall : ∀ t : Bytes, t.all isNum → 0 ∉ t := fun t ht h0 =>
    (hnum 0 (List.all_eq_true.mp ht 0 h0)).1 rfl
  cases s with
  | nil => cases h
  | cons c t =>
    by_cases hm : c = '-'.toUInt8
    · rw [show decimalInteger (c :: t) = _ from if_pos hm] at h
      obtain ⟨n,hn,-⟩ := Option.map_eq_some_iff.mp h
      subst hm
      exact ⟨List.not_mem_cons_of_ne_of_not_mem (by decide) (hall t (numeral_all hn)),rfl⟩
    · by_cases hp : c = '+'.toUInt8
      · rw [show decimalInteger (c :: t) = _ from (if_neg hm).trans (if_pos hp)] at h
        obtain ⟨n,hn,-⟩ := Option.map_eq_some_iff.mp h
        subst hp
        exact ⟨List.not_mem_cons_of_ne_of_not_mem (by decide) (hall t (numeral_all hn)),rfl⟩
      · rw [show decimalInteger (c :: t) = _ from (if_neg hm).trans (if_neg hp)] at h
        obtain ⟨n,hn,-⟩ := Option.map_eq_some_iff.mp h
        have hc := numeral_all hn
        exact ⟨hall _ hc,by simpa using (hnum c (List.all_eq_true.mp hc c (by simp))).2⟩

theorem dropWhile_isspace {s : Bytes} (h : s.head?.any isspace = false) : s.dropWhile isspace = s := by
  cases s with
  | nil => rfl
  | cons c t => simpa using h

theorem beforeBlank_cstr {s : Bytes} (h : 0 ∉ beforeBlank s) : beforeBlank (cstr s) = beforeBlank s := by
  induction s with
  | nil => rfl
  | cons c t ih =>
    by_cases hsp : c = SP
    · subst hsp
      rfl
    · have hcons : beforeBlank (c :: t) = c :: beforeBlank t :=
        List.takeWhile_cons_of_pos (by simpa using hsp)
      rw [hcons,List.mem_cons,not_or] at h
      have hcut : cstr (c :: t) = c :: cstr t :=
        List.takeWhile_cons_of_pos (by simpa using fun hc : c = 0 => h.1 hc.symm)
      have hcons' : beforeBlank (c :: cstr t) = c :: beforeBlank (cstr t) :=
        List.takeWhile_cons_of_pos (by simpa using hsp)
      rw [hcut,hcons',hcons,ih h.2]

/-- A valid status string is read as it is. -/
theorem ValidStatus.readStatus {s : List ℕ} {code : ℕ} (h : ValidStatus s code) :
    readStatus (latin1 s) = .ok code ∧ ¬Misread s := by
  obtain ⟨-,hd,hlo,hhi⟩ := h
  obtain ⟨h0,hsp⟩ := decimalInteger_plain hd
  have hsame : (beforeBlank (cstr (latin1 s))).dropWhile isspace = beforeBlank (latin1 s) := by
    rw [beforeBlank_cstr h0,dropWhile_isspace hsp]
  have hmod : Int.bmod (code : ℤ) (2 ^ 32) = code := by
    rw [Int.bmod_def]
    omega
  refine ⟨readStatus_eq_ok.mpr ⟨code,hsame ▸ hd,by omega,by omega,hmod,hlo,hhi⟩,?_⟩
  rintro ⟨v,hv,-,-,-,-,hbad⟩
  rw [hsame,hd] at hv
  cases hv
  rcases hbad with h | h | h
  · exact h0 h
  · rw [hsp] at h
    cases h
  · exact h hmod

/-- What is misread is read. -/
theorem Misread.readStatus {s : List ℕ} (h : Misread s) : ∃ code, readStatus (latin1 s) = .ok code := by
  obtain ⟨v,hd,h1,h2,hlo,hhi,-⟩ := h
  exact ⟨(Int.bmod v (2 ^ 32)).toNat,
    readStatus_eq_ok.mpr ⟨v,hd,h1,h2,by omega,by omega,by omega⟩⟩

/-- What is read and not misread is valid. -/
theorem valid_of_readStatus {s : List ℕ} {code : ℕ} (hs : ∀ ch ∈ s, ch < 256) (hread : ¬Misread s)
    (h : readStatus (latin1 s) = .ok code) : ValidStatus s code := by
  obtain ⟨v,hd,h1,h2,hmod,hlo,hhi⟩ := readStatus_eq_ok.mp h
  by_contra hv
  refine hread ⟨v,hd,h1,h2,by omega,by omega,?_⟩
  by_contra hgood
  rw [not_or,not_or,not_not] at hgood
  obtain ⟨h0,hsp,hsame⟩ := hgood
  rw [beforeBlank_cstr h0,dropWhile_isspace (by simpa using hsp)] at hd
  exact hv ⟨hs,by rw [hd,← hmod,hsame],hlo,hhi⟩

/-- On a client without headers a status string is taken as it should be exactly when all its characters
are in latin-1, it is copied and not misread, or not copied for a negative length and not valid. -/
theorem startsExactly_iff {c : Client} (hc : c.headers = none) (s : List ℕ)
    (headers : List HeaderItem) (excInfo : Bool) :
    StartsExactly c s headers excInfo ↔ (∀ ch ∈ s, ch < 256) ∧
      (Copied (latin1 s) ∧ ¬Misread s ∨ byteLen (latin1 s) = none ∧ ∀ code, ¬ValidStatus s code) := by
  unfold StartsExactly
  by_cases hs : ∀ ch ∈ s, ch < 256
  swap
  · rw [responseObjectCall_not_latin1 hc hs]
    simp [hs]
  rw [responseObjectCall_latin1 hc hs]
  by_cases hroom : Copied (latin1 s)
  swap
  · rw [takeStatus_not_copied _ _ hroom]
    by_cases hnone : byteLen (latin1 s) = none
    · simpa [hnone,hroom] using fun _ => hs
    · simp [hnone,hroom]
  have hsome : byteLen (latin1 s) ≠ none := by
    obtain ⟨room,hr,-⟩ := hroom
    rw [Option.mem_def.mp hr]
    simp
  obtain ⟨n,-,htake⟩ := takeStatus_copied c headers hroom
  rw [htake]
  constructor
  · intro h
    refine ⟨hs,.inl ⟨hroom,?_⟩⟩
    rcases h with ⟨code,c',hv,-,-⟩ | ⟨-,e,hcall⟩
    · exact hv.readStatus.2
    · intro hmis
      obtain ⟨code,hcode⟩ := hmis.readStatus
      rw [hcode] at hcall
      cases hcall
  · rintro ⟨-,⟨-,hread⟩ | ⟨hnone,-⟩⟩
    swap
    · exact absurd hnone hsome
    by_cases hv : ∃ code, ValidStatus s code
    · obtain ⟨code,hv⟩ := hv
      rw [hv.readStatus.1]
      exact .inl ⟨code,_,hv,rfl,rfl⟩
    · refine .inr ⟨fun code h => hv ⟨code,h⟩,?_⟩
      cases hcode : readStatus (latin1 s) with
      | error e => exact ⟨e,rfl⟩
      | ok code => exact absurd ⟨code,valid_of_readStatus hs hread hcode⟩ hv

/-- `"200 OK"`. -/
def okStatus : List ℕ := [50,48,48,32,79,75]

theorem startsExactly_ok : StartsExactly {} okStatus [] false :=
  (startsExactly_iff rfl okStatus [] false).mpr ⟨by decide,.inl ⟨copied_of_lt (by decide),by
    rintro ⟨v,hv,-,-,-,-,hbad⟩
    have h200 : v = 200 := Option.some.inj (hv.symm.trans (by decide))
    subst h200
    revert hbad
    decide⟩⟩

/-- `"200 "` and `n` letters. -/
def lettersStatus (n : ℕ) : List ℕ := [50,48,48,32] ++ List.replicate n 65

theorem lettersStatus_valid (n : ℕ) : ValidStatus (lettersStatus n) 200 := by
  refine ⟨fun ch hch => ?_,?_,by decide,by decide⟩
  · rcases List.mem_append.mp hch with h | h
    · have hall : ∀ ch ∈ [50,48,48,32], ch < 256 := by decide
      exact hall ch h
    · rw [List.eq_of_mem_replicate h]
      decide
  · have hblank : beforeBlank (latin1 (lettersStatus n)) = [50,48,48] := by
      simp only [lettersStatus,latin1,List.map_append]
      generalize (List.replicate n 65).map UInt8.ofNat = rest
      rfl
    rw [hblank]
    decide

theorem latin1_lettersStatus_length (n : ℕ) : (latin1 (lettersStatus n)).length = 4 + n := by
  rw [latin1,List.length_map,lettersStatus,List.length_append,List.length_replicate]
  rfl

/-- `"200 "` and a character beyond latin-1 kill the process, `"4294967496"` is taken for 200, and a
status of more than 2 GiB is refused. -/
theorem not_startsExactly : ¬StartsExactly {} [50,48,48,32,256] [] false ∧
    ¬StartsExactly {} [52,50,57,52,57,54,55,52,57,54] [] false ∧
    ¬StartsExactly {} (lettersStatus (2 ^ 31)) [] false := by
  refine ⟨?_,?_,?_⟩
  · have hcrash : responseObjectCall {}
        { status := .str [50,48,48,32,256], headers := some [] } = .crash := by decide
    rintro (⟨code,c',-,-,hcall⟩ | ⟨-,e,hcall⟩) <;> cases hcrash.symm.trans hcall
  · rintro (⟨code,c',⟨-,hd,-,hhi⟩,-,-⟩ | ⟨-,e,hcall⟩)
    · have hcode : (code : ℤ) = 4294967496 := Option.some.inj (hd.symm.trans (by decide))
      omega
    · exact absurd hcall (by cases e <;> decide +kernel)
  · generalize hn : 2 ^ 31 = n
    have hnone : byteLen (latin1 (lettersStatus n)) = none := by
      unfold byteLen
      rw [latin1_lettersStatus_length,if_neg (by omega)]
    have hvalid := lettersStatus_valid n
    have hraise := responseObjectCall_latin1 (c := {}) rfl hvalid.1 [] false
    rw [takeStatus_not_copied _ _ (by simp [Copied,hnone]),if_pos hnone] at hraise
    rintro (⟨code,c',-,-,hcall⟩ | ⟨hno,-⟩)
    · cases hraise.symm.trans hcall
    · exact hno 200 hvalid

end Meinheld
