import Meinheld.StartCalls
import Meinheld.TextLines

/-! The head of a response as a client reads it: by lines, up to the first empty one. -/
namespace Meinheld

/-! ### The date of the server -/

/-- The fields of `gmtime` that `cache_time_update` prints, in the years of four digits. -/
structure Tm where
  wday : Fin 7
  mday : ℕ
  mon : Fin 12
  year : ℕ
  hour : ℕ
  min : ℕ
  sec : ℕ
  mday_lt : mday < 100 := by decide
  year_ge : 1000 ≤ year := by decide
  year_lt : year < 10000 := by decide
  hour_lt : hour < 100 := by decide
  min_lt : min < 100 := by decide
  sec_lt : sec < 100 := by decide

def week : Fin 7 → String := ![ "Sun", "Mon", "Tue", "Wed", "Thu", "Fri", "Sat"]

def months : Fin 12 → String :=
  ![ "Jan", "Feb", "Mar", "Apr", "May", "Jun", "Jul", "Aug", "Sep", "Oct", "Nov", "Dec"]

/-- `%02d`. -/
def twoDigits (n : ℕ) : Bytes := if n < 10 then ascii "0" ++ decimal n else decimal n

/-- What `cache_time_update` leaves in `http_time`. -/
def Tm.httpDate (t : Tm) : Bytes :=
  ascii (week t.wday) ++ ascii ", " ++ twoDigits t.mday ++ ascii " " ++ ascii (months t.mon) ++
    ascii " " ++ decimal t.year ++ ascii " " ++ twoDigits t.hour ++ ascii ":" ++ twoDigits t.min ++
    ascii ":" ++ twoDigits t.sec ++ ascii " GMT"

theorem length_decimal_le_iff {n k : ℕ} (hk : 0 < k) : (decimal n).length ≤ k ↔ n < 10 ^ k := by
  rw [decimal,List.length_map]
  exact Nat.length_toDigits_le_iff (by decide) hk

theorem length_twoDigits {n : ℕ} (h : n < 100) : (twoDigits n).length = 2 := by
  have h1 := length_decimal_le_iff (n := n) (k := 1) (by decide)
  have h2 := length_decimal_le_iff (n := n) (k := 2) (by decide)
  have hpos : 0 < (decimal n).length := by
    rw [decimal,List.length_map]
    exact Nat.length_toDigits_pos
  unfold twoDigits
  split
  · rw [List.length_append,show (ascii "0").length = 1 from rfl]
    omega
  · omega

/-- The 29 bytes `add_status_line` takes are all of the date. -/
theorem Tm.length_httpDate (t : Tm) : t.httpDate.length = 29 := by
  have hweek : ∀ d, (ascii (week d)).length = 3 := by decide
  have hmonth : ∀ m, (ascii (months m)).length = 3 := by decide
  have hyear : (decimal t.year).length = 4 := by
    have h3 := length_decimal_le_iff (n := t.year) (k := 3) (by decide)
    have h4 := length_decimal_le_iff (n := t.year) (k := 4) (by decide)
    have hge := t.year_ge
    have hlt := t.year_lt
    omega
  have htext : (ascii ", ").length = 2 ∧ (ascii " ").length = 1 ∧ (ascii ":").length = 1 ∧
      (ascii " GMT").length = 4 := by decide
  simp only [Tm.httpDate,List.length_append,hweek,hmonth,hyear,htext,length_twoDigits t.mday_lt,
    length_twoDigits t.hour_lt,length_twoDigits t.min_lt,length_twoDigits t.sec_lt]

theorem LF_not_mem_decimal (n : ℕ) : LF ∉ decimal n := fun h =>
  absurd (isNum_of_mem_decimal h) (by decide)

theorem Tm.LF_not_mem_httpDate (t : Tm) : LF ∉ t.httpDate := by
  have hweek : ∀ d, LF ∉ ascii (week d) := by decide
  have hmonth : ∀ m, LF ∉ ascii (months m) := by decide
  have htwo : ∀ n, LF ∉ twoDigits n := by
    intro n
    unfold twoDigits
    split
    · rw [List.mem_append,not_or]
      exact ⟨by decide,LF_not_mem_decimal n⟩
    · exact LF_not_mem_decimal n
  have htext : LF ∉ ascii ", " ∧ LF ∉ ascii " " ∧ LF ∉ ascii ":" ∧ LF ∉ ascii " GMT" := by decide
  simp only [Tm.httpDate,List.mem_append,not_or]
  exact ⟨⟨⟨⟨⟨⟨⟨⟨⟨⟨⟨⟨⟨hweek _,htext.1⟩,htwo _⟩,htext.2.1⟩,hmonth _⟩,htext.2.1⟩,
    LF_not_mem_decimal _⟩,htext.2.1⟩,htwo _⟩,htext.2.2.1⟩,htwo _⟩,htext.2.2.1⟩,htwo _⟩,htext.2.2.2⟩

/-! ### Reading a head -/

/-- The name of a header line, and its value after the colon and a blank. -/
def readField (l : Bytes) : Bytes × Bytes :=
  (l.takeWhile (· ≠ ':'.toUInt8),(l.dropWhile (· ≠ ':'.toUInt8)).drop 2)

/-- The status line of a head and its headers, as one reads it by lines that CR LF end, up to the
first empty one. -/
def readHead (s : Bytes) : Option (Bytes × List (Bytes × Bytes)) :=
  match TextLines.read CR LF s with
  | [] => none
  | l :: ls => some (l,ls.map readField)

/-- A text that CR LF does not break. -/
abbrev Unbroken (s : Bytes) : Prop := TextLines.Unbroken CR LF s

theorem Unbroken.of_not_mem {s : Bytes} (h : LF ∉ s) : Unbroken s := fun hi =>
  h (hi.subset (by simp))

def fieldText (h : Bytes × Bytes) : Bytes := h.1 ++ ascii ": " ++ h.2

theorem headerLine_eq (h : Bytes × Bytes) : headerLine h = fieldText h ++ [CR,LF] := rfl

theorem readField_fieldText {h : Bytes × Bytes} (hname : ':'.toUInt8 ∉ h.1) :
    readField (fieldText h) = h := by
  have hne : ∀ c ∈ h.1, decide (c ≠ ':'.toUInt8) = true := fun c hc => by
    simpa using fun heq : c = ':'.toUInt8 => hname (heq ▸ hc)
  have htext : fieldText h = h.1 ++ ':'.toUInt8 :: SP :: h.2 := by
    rw [fieldText,List.append_assoc]
    rfl
  rw [readField,htext,List.takeWhile_append_of_pos hne,List.dropWhile_append_of_pos hne]
  simp

theorem unbroken_fieldText {h : Bytes × Bytes} :
    Unbroken (fieldText h) ↔ Unbroken h.1 ∧ Unbroken h.2 := by
  have htext : fieldText h = h.1 ++ ':'.toUInt8 :: ([] ++ SP :: h.2) := by
    rw [fieldText,List.append_assoc]
    rfl
  have hcolon : ∀ s t : Bytes, Unbroken (s ++ ':'.toUInt8 :: t) ↔ Unbroken s ∧ Unbroken t := fun s t =>
    TextLines.unbroken_append_cons (by decide) (by decide)
  have hblank : ∀ s t : Bytes, Unbroken (s ++ SP :: t) ↔ Unbroken s ∧ Unbroken t := fun s t =>
    TextLines.unbroken_append_cons (by decide) (by decide)
  rw [htext,hcolon,hblank]
  exact and_congr_right fun _ => and_iff_right TextLines.unbroken_nil

theorem readField_unbroken {l : Bytes} (h : Unbroken l) : ':'.toUInt8 ∉ (readField l).1 ∧
    Unbroken (readField l).1 ∧ Unbroken (readField l).2 := by
  refine ⟨fun hc => ?_,h.of_infix (List.takeWhile_prefix _).isInfix,
    h.of_infix ((List.drop_suffix _ _).trans (List.dropWhile_suffix _)).isInfix⟩
  simpa using List.mem_takeWhile_imp hc

/-! ### The head that a call of `start_response` asks for -/

/-- The line of a status without its end. -/
def statusText (httpMinor : ℕ) (status : Bytes) : Bytes :=
  (if httpMinor = 1 then ascii "HTTP/1.1 " else ascii "HTTP/1.0 ") ++ status

def isOwnName (name : Bytes) : Bool :=
  name.map tolower == ascii "server" || name.map tolower == ascii "date"

/-- The headers of the application but its `Server` and `Date`. -/
def givenHeaders (headers : List HeaderItem) : List (Bytes × Bytes) :=
  (headers.filterMap headerBytes).filter fun h => !isOwnName h.1

/-- A head cannot be split: read by lines, it has the lines that the call and the server gave it. -/
def ReadsAsGiven (g : Globals) (c : Client) (a : StartResponseArgs) (hs : List HeaderItem)
    (data : Option Bytes) (isFile : Option ℕ) (head : Bytes) : Prop := ∀ rest,
  readHead (head ++ rest) = some (statusText c.httpParser.httpMinor a.statusBytes,
    (ascii "Server",SERVER) :: (ascii "Date",g.httpTime) :: (givenHeaders hs ++
      framingLines (c.withLength (appLength hs)) data isFile ++
        [(ascii "Connection",connectionValue c)]))

/-- A call with a status that fits and is one line, whose headers have names without a colon, are
each one line, and are not taken for the server's own. -/
structure Unsplit (a : StartResponseArgs) (hs : List HeaderItem) : Prop where
  fits : StatusFits a.statusBytes
  status : Unbroken a.statusBytes
  kept : ∀ h ∈ givenHeaders hs, isEmitted h = true
  headers : ∀ h ∈ givenHeaders hs, ':'.toUInt8 ∉ h.1 ∧ Unbroken h.1 ∧ Unbroken h.2

theorem emitted_eq (hs : List HeaderItem) : emitted hs = (givenHeaders hs).filter isEmitted := by
  have hown : ∀ h : Bytes × Bytes, isEmitted h = true → (!isOwnName h.1) = true := by
    intro h he
    rw [Bool.not_eq_true',← Bool.not_eq_true]
    intro ho
    have hcstr : ∀ name : String, (ascii name).map tolower = ascii name → 0 ∉ ascii name →
        h.1.map tolower = ascii name → cstr h.1 = h.1 := fun name hl h0 hn =>
      cstr_eq_self fun hmem => h0 (hn ▸ List.mem_map.mpr ⟨0,hmem,by decide⟩)
    simp only [isOwnName,Bool.or_eq_true,beq_iff_eq] at ho
    simp only [isEmitted,strcasecmp,Bool.not_eq_true',Bool.or_eq_false_iff,beq_eq_false_iff_ne] at he
    rcases ho with ho | ho
    · rw [hcstr "server" (by decide) (by decide) ho] at he
      exact he.1 (ho.trans (by decide))
    · rw [hcstr "date" (by decide) (by decide) ho] at he
      exact he.2 (ho.trans (by decide))
  unfold emitted givenHeaders
  rw [List.filter_filter]
  refine List.filter_congr fun h _ => ?_
  cases he : isEmitted h with
  | false => rfl
  | true => rw [hown h he]; rfl

/-- The lines of the server have no line end in them. -/
theorem server_unbroken {c c' : Client} {data : Option Bytes} {isFile : Option ℕ} {h : Bytes × Bytes}
    (hh : h ∈ framingLines c data isFile ++ [(ascii "Connection",connectionValue c')]) :
    ':'.toUInt8 ∉ h.1 ∧ Unbroken h.1 ∧ Unbroken h.2 := by
  have key : ∀ name value : Bytes, ':'.toUInt8 ∉ name → LF ∉ name → LF ∉ value → h = (name,value) →
      ':'.toUInt8 ∉ h.1 ∧ Unbroken h.1 ∧ Unbroken h.2 := by
    rintro name value hcolon hn hv rfl
    exact ⟨hcolon,.of_not_mem hn,.of_not_mem hv⟩
  rcases List.mem_append.mp hh with hh | hh
  · rcases List.mem_append.mp hh with hh | hh
    · split at hh
      · exact key _ _ (by decide) (by decide) (by decide) (List.mem_singleton.mp hh)
      · simp at hh
    · cases isFile with
      | none => simp at hh
      | some size =>
        simp only at hh
        split at hh
        · simp at hh
        · exact key _ _ (by decide) (by decide) (LF_not_mem_decimal size) (List.mem_singleton.mp hh)
  · refine key _ _ (by decide) (by decide) ?_ (List.mem_singleton.mp hh)
    unfold connectionValue
    split
    · decide
    · split <;> decide

instance (status : Bytes) : Decidable (StatusFits status) :=
  inferInstanceAs (Decidable (status.length + 11 ≤ LIMIT_MAX))

def headTexts (g : Globals) (c : Client) (status : Bytes) (hs : List HeaderItem)
    (data : Option Bytes) (isFile : Option ℕ) : List Bytes :=
  (if StatusFits status then [statusText c.httpParser.httpMinor status,
    fieldText (ascii "Server",SERVER),fieldText (ascii "Date",g.httpTime)] else []) ++
    (headLines c hs data isFile).map fieldText

section
variable {g : Globals} {c : Client} {a : StartResponseArgs} {status : Bytes} {hs : List HeaderItem}
  {data : Option Bytes} {isFile : Option ℕ}

theorem headBytes_texts (hstatus : c.httpStatus = createStatus status c.httpParser.httpMinor) :
    headBytes g c hs data isFile =
      (headTexts g c status hs data isFile).flatMap (· ++ [CR,LF]) ++ [CR,LF] := by
  have hlines : ∀ ls : List (Bytes × Bytes),
      (ls.map fieldText).flatMap (· ++ [CR,LF]) = ls.flatMap headerLine := by
    intro ls
    rw [List.flatMap_map]
    rfl
  unfold headBytes headTexts
  rw [List.flatMap_append,hlines]
  congr 2
  unfold statusLines
  rw [hstatus]
  by_cases hfits : StatusFits status
  · rw [(createStatus_eq _ _).1 hfits,if_pos hfits]
    simp only [statusLine,statusText,headerLine_eq,List.flatMap_cons,List.flatMap_nil,
      List.append_nil,List.append_assoc]
  · rw [(createStatus_eq _ _).2 hfits,if_neg hfits]
    rfl

theorem statusText_unbroken {httpMinor : ℕ} {status : Bytes} :
    Unbroken (statusText httpMinor status) ↔ Unbroken status := by
  have hsplit : ∃ version : Bytes, statusText httpMinor status = version ++ SP :: status ∧
      LF ∉ version := by
    unfold statusText
    split
    · exact ⟨ascii "HTTP/1.1",rfl,by decide⟩
    · exact ⟨ascii "HTTP/1.0",rfl,by decide⟩
  obtain ⟨version,hv,hLF⟩ := hsplit
  have hblank : Unbroken (version ++ SP :: status) ↔ Unbroken version ∧ Unbroken status :=
    TextLines.unbroken_append_cons (by decide) (by decide)
  rw [hv,hblank]
  exact and_iff_right (.of_not_mem hLF)

theorem fieldText_ne_nil (h : Bytes × Bytes) : fieldText h ≠ [] := by
  have hlen : (ascii ": ").length = 2 := rfl
  intro hnil
  have := congrArg List.length hnil
  simp only [fieldText,List.length_append,hlen,List.length_nil] at this
  omega

theorem statusText_ne_nil (httpMinor : ℕ) (status : Bytes) : statusText httpMinor status ≠ [] := by
  unfold statusText
  split <;> exact List.cons_ne_nil _ _

theorem headTexts_unbroken (hdate : LF ∉ g.httpTime) (hstatus : Unbroken status)
    (hhs : ∀ h ∈ emitted hs, Unbroken h.1 ∧ Unbroken h.2) :
    ∀ l ∈ headTexts g c status hs data isFile, l ≠ [] ∧ Unbroken l := by
  intro l hl
  rcases List.mem_append.mp hl with hl | hl
  · have hname : LF ∉ ascii "Date" := by decide
    split at hl
    swap
    · simp at hl
    simp only [List.mem_cons,List.not_mem_nil,or_false] at hl
    rcases hl with rfl | rfl | rfl
    · exact ⟨statusText_ne_nil _ _,statusText_unbroken.mpr hstatus⟩
    · exact ⟨fieldText_ne_nil _,unbroken_fieldText.mpr ⟨.of_not_mem (by decide),.of_not_mem (by decide)⟩⟩
    · exact ⟨fieldText_ne_nil _,unbroken_fieldText.mpr ⟨.of_not_mem hname,.of_not_mem hdate⟩⟩
  · obtain ⟨h,hmem,rfl⟩ := List.mem_map.mp hl
    refine ⟨fieldText_ne_nil h,unbroken_fieldText.mpr ?_⟩
    unfold headLines at hmem
    rw [List.append_assoc,List.mem_append] at hmem
    rcases hmem with hmem | hmem
    · exact hhs h hmem
    · exact (server_unbroken hmem).2

/-- A head reads as the call and the server gave it exactly when the call is unsplit. -/
theorem readsAsGiven_headBytes (hdate : LF ∉ g.httpTime) {n : ℕ} (hn : n ∈ byteLen a.statusBytes)
    (hstatus : c.httpStatus = createStatus (a.statusBytes.take n) c.httpParser.httpMinor) :
    ReadsAsGiven g c a hs data isFile (headBytes g c hs data isFile) ↔ Unsplit a hs := by
  rw [ReadsAsGiven,headBytes_texts hstatus]
  constructor
  · intro h
    specialize h []
    unfold readHead at h
    rw [List.append_nil] at h
    cases hread : TextLines.read CR LF
      ((headTexts g c (a.statusBytes.take n) hs data isFile).flatMap (· ++ [CR,LF]) ++ [CR,LF]) with
    | nil =>
      rw [hread] at h
      cases h
    | cons l ls =>
      simp only [hread,Option.some.injEq,Prod.mk.injEq] at h
      obtain ⟨hl,hls⟩ := h
      -- no line that is read is broken, so none that was asked for is
      have hone : ∀ m ∈ l :: ls, Unbroken m := fun m hm =>
        TextLines.unbroken_of_mem_read (hread ▸ hm)
      have hgiven : ∀ h ∈ givenHeaders hs, ':'.toUInt8 ∉ h.1 ∧ Unbroken h.1 ∧ Unbroken h.2 := by
        intro h hh
        have hmem : h ∈ ls.map readField := by
          rw [hls]
          simp [hh]
        obtain ⟨m,hm,rfl⟩ := List.mem_map.mp hmem
        exact readField_unbroken (hone m (List.mem_cons_of_mem _ hm))
      have hst : Unbroken a.statusBytes := by
        rw [← statusText_unbroken,← hl]
        exact hone l List.mem_cons_self
      have hemitted : ∀ h ∈ emitted hs, Unbroken h.1 ∧ Unbroken h.2 := fun h hh =>
        (hgiven h (by rw [emitted_eq] at hh; exact List.mem_of_mem_filter hh)).2
      -- so the lines that are read are those that were written, and their number tells the rest
      rw [← List.append_nil (_ ++ [CR,LF]),
        TextLines.read_of_unbroken [] (by decide)
          (headTexts_unbroken hdate (hst.of_infix (List.take_prefix _ _).isInfix) hemitted)] at hread
      have hlen := congrArg List.length hread
      have hlen' := congrArg List.length hls
      have hle := List.length_filter_le isEmitted (givenHeaders hs)
      simp only [headTexts,headLines,emitted_eq,List.length_append,List.length_map,List.length_cons,
        List.length_nil] at hlen hlen'
      have hcut : StatusFits (a.statusBytes.take n) := by
        by_contra hno
        simp only [if_neg hno,List.length_nil] at hlen
        omega
      have hfits : StatusFits a.statusBytes := by
        rw [headTexts,if_pos hcut] at hread
        have hfirst := congrArg List.length ((List.cons.inj hread).1.trans hl)
        simp only [statusText,List.length_append] at hfirst
        unfold StatusFits at hcut ⊢
        omega
      refine ⟨hfits,hst,List.length_filter_eq_length_iff.mp ?_,hgiven⟩
      simp only [if_pos hcut,List.length_cons,List.length_nil] at hlen
      omega
  · rintro ⟨hfits,hst,hkept,hgiven⟩ rest
    have hall : emitted hs = givenHeaders hs := by
      rw [emitted_eq]
      exact List.filter_eq_self.mpr hkept
    rw [hfits.take hn]
    have htexts : ∀ l ∈ headTexts g c a.statusBytes hs data isFile, l ≠ [] ∧ Unbroken l :=
      headTexts_unbroken hdate hst fun h hh => (hgiven h (hall ▸ hh)).2
    have hread := TextLines.read_of_unbroken rest (by decide : CR ≠ LF) htexts
    have hfields : ((headLines c hs data isFile).map fieldText).map readField =
        headLines c hs data isFile := by
      rw [List.map_map]
      refine (List.map_congr_left fun h hmem => ?_).trans (List.map_id _)
      refine readField_fieldText ?_
      unfold headLines at hmem
      rw [List.append_assoc,List.mem_append,hall] at hmem
      rcases hmem with hmem | hmem
      · exact (hgiven h hmem).1
      · exact (server_unbroken hmem).1
    have hname : ':'.toUInt8 ∉ ascii "Date" := by decide
    unfold readHead
    rw [hread,headTexts,if_pos hfits]
    simp only [List.cons_append,List.nil_append,List.map_cons,hfields]
    rw [readField_fieldText (by decide),readField_fieldText hname,headLines,hall]

end

theorem responseObjectCall_status {c c' : Client} {a : StartResponseArgs}
    (h : responseObjectCall c a = .returned c') : ∃ n ∈ byteLen a.statusBytes,
      c'.httpStatus = createStatus (a.statusBytes.take n) c'.httpParser.httpMinor := by
  have hnone : c.headers = none := by
    cases hh : c.headers with
    | none => rfl
    | some hs =>
      obtain ⟨e,hraise,-⟩ := responseObjectCall_of_headers (a := a) (by rw [hh]; rfl : c.headers.isSome)
      cases hraise.symm.trans h
  have hacc : a.Acceptable := by
    by_contra hno
    exact responseObjectCall_not_acceptable hno h
  obtain ⟨code,n,-,hn,hcall⟩ := responseObjectCall_acceptable hnone hacc
  rw [← CallResult.returned.inj (hcall.symm.trans h)]
  exact ⟨n,hn,rfl⟩

/-- The first second of the epoch, which `{}` has. -/
def epoch : Tm where
  wday := 4
  mday := 1
  mon := 0
  year := 1970
  hour := 0
  min := 0
  sec := 0

/-- A call with one header. -/
def headerCall (name value : String) : StartResponseArgs where
  status := .str okStatus
  headers := some [.tuple [asciiStr name,asciiStr value]]

/-- The client after the call. -/
def headerClient (name value : String) : Client :=
  { statusCode := 200
    headers := (headerCall name value).headers
    httpStatus := some (ascii "HTTP/1.0 200 OK\r\n") }

theorem headerCall_returned (name value : String) :
    responseObjectCall {} (headerCall name value) = .returned (headerClient name value) := by
  have hroom : byteLen (latin1 okStatus) = some 6 := by decide +kernel
  have hcode : readStatus (latin1 okStatus) = .ok 200 := by decide +kernel
  have hline : createStatus ((latin1 okStatus).take 6) 0 = some (ascii "HTTP/1.0 200 OK\r\n") := by
    decide +kernel
  rw [headerCall,responseObjectCall_latin1 rfl (by decide),headerClient]
  unfold takeStatus
  simp only [hroom,hcode,hline]
  rfl

def HeadersResult.isOk : HeadersResult → Bool
  | .ok _ _ => true
  | _ => false

end Meinheld
