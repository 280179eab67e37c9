import Meinheld.AccessLog
import Meinheld.RingRows

/-! `time_cache.c`: the texts of the time are made once in a second, each time in the next of 64 slots.
A response keeps the pointer to its date while it is sent. -/
namespace Meinheld

def TIME_SLOTS : ℕ := 64

/-- What the calls of the C library give in `cache_time_update`: the time of `gettimeofday`, the time
of `time` in the two zones, and the offset of the local one. -/
structure TimeReading where
  sec : ℕ
  msec : ℕ
  gmt : Tm
  localTm : Tm
  isdst : Bool
  timezone : ℤ
  timezone_lt : timezone.natAbs < 25 * 3600 := by decide

/-- `get_timezone`. -/
def TimeReading.gmtoff (r : TimeReading) : ℤ :=
  (-(if r.isdst then r.timezone + 3600 else r.timezone)).tdiv 60

/-- `cache_time_t`. -/
structure CacheTime where
  sec : ℕ := 0
  msec : ℕ := 0
  gmtoff : ℤ := 0

/-- What `cache_time_update` leaves in `err_log_time`. -/
def Tm.errLogTime (t : Tm) : Bytes :=
  decimal t.year ++ ascii "/" ++ twoDigits (t.mon + 1) ++ ascii "/" ++ twoDigits t.mday ++ ascii " " ++
    twoDigits t.hour ++ ascii ":" ++ twoDigits t.min ++ ascii ":" ++ twoDigits t.sec

/-- The sizes of the texts, with the byte that ends each. -/
def httpTimeSize : ℕ := (ascii "Mon, 28 Sep 1970 06:00:00 GMT").length + 1
def errLogTimeSize : ℕ := (ascii "1970/09/28 12:00:00").length + 1
def httpLogTimeSize : ℕ := (ascii "28/Sep/1970:12:00:00 +0600").length + 1

theorem httpTimeSize_eq : httpTimeSize = 29 + 1 := by decide
theorem errLogTimeSize_eq : errLogTimeSize = 19 + 1 := by decide
theorem httpLogTimeSize_eq : httpLogTimeSize = 26 + 1 := by decide

def sprintf (m : Memory Byte) (p : ℕ) (text : Bytes) : Memory Byte := m.writeAll p (text ++ [0])

/-- The globals of `time_cache.c`. The texts lie in arrays of chars, and a pointer is a place in its
array; `none` is `NULL`. -/
structure TimeCache where
  slot : ℕ := 0
  currentMsec : ℕ := 0
  cachedTime : ℕ → CacheTime := fun _ => {}
  cachedErrLogTime : Memory Byte := { cell := fun _ => 0 }
  cachedHttpTime : Memory Byte := { cell := fun _ => 0 }
  cachedHttpLogTime : Memory Byte := { cell := fun _ => 0 }
  errLogTime : Option ℕ := none
  httpTime : Option ℕ := none
  httpLogTime : Option ℕ := none

namespace TimeCache

/-- `cache_time_update`. -/
def update (c : TimeCache) (r : TimeReading) : TimeCache :=
  let c := { c with currentMsec := r.sec * 1000 + r.msec }
  let tp := c.cachedTime c.slot
  if tp.sec = r.sec then
    { c with cachedTime := Function.update c.cachedTime c.slot { tp with msec := r.msec } }
  else
    let slot := if c.slot = TIME_SLOTS - 1 then 0 else c.slot + 1
    { c with
      slot := slot
      cachedTime := Function.update c.cachedTime slot ⟨r.sec,r.msec,r.gmtoff⟩
      cachedHttpTime := sprintf c.cachedHttpTime (slot * httpTimeSize) r.gmt.httpDate
      cachedErrLogTime := sprintf c.cachedErrLogTime (slot * errLogTimeSize) r.localTm.errLogTime
      cachedHttpLogTime :=
        sprintf c.cachedHttpLogTime (slot * httpLogTimeSize) (r.localTm.httpLogTime r.gmtoff)
      httpTime := some (slot * httpTimeSize)
      errLogTime := some (slot * errLogTimeSize)
      httpLogTime := some (slot * httpLogTimeSize) }

/-- The updates of a process, the first one in `cache_time_init`. -/
def run (c : TimeCache) (rs : List TimeReading) : TimeCache := rs.foldl update c

end TimeCache

/-! ### The texts fit -/

theorem Tm.length_year (t : Tm) : (decimal t.year).length = 4 := by
  have h3 := length_decimal_le_iff (n := t.year) (k := 3) (by decide)
  have h4 := length_decimal_le_iff (n := t.year) (k := 4) (by decide)
  have hge := t.year_ge
  have hlt := t.year_lt
  omega

theorem Tm.length_errLogTime (t : Tm) : t.errLogTime.length = 19 := by
  have htext : (ascii "/").length = 1 ∧ (ascii " ").length = 1 ∧ (ascii ":").length = 1 := by decide
  have hmon : (t.mon : ℕ) + 1 < 100 := by omega
  simp only [Tm.errLogTime,List.length_append,t.length_year,htext,length_twoDigits hmon,
    length_twoDigits t.mday_lt,length_twoDigits t.hour_lt,length_twoDigits t.min_lt,
    length_twoDigits t.sec_lt]

theorem TimeReading.gmtoff_lt (r : TimeReading) : r.gmtoff.natAbs < 100 * 60 := by
  have hzone := r.timezone_lt
  rw [TimeReading.gmtoff,Int.natAbs_tdiv]
  show _ / 60 < _
  split <;> omega

theorem TimeReading.length_httpLogTime (r : TimeReading) :
    (r.localTm.httpLogTime r.gmtoff).length = 26 := by
  have hmonth : ∀ m, (ascii (months m)).length = 3 := by decide
  have htext : (ascii "/").length = 1 ∧ (ascii " ").length = 1 ∧ (ascii ":").length = 1 := by decide
  have hoff := r.gmtoff_lt
  have hsign : (if r.gmtoff < 0 then ascii "-" else ascii "+").length = 1 := by
    split <;> decide
  simp only [Tm.httpLogTime,List.length_append,hmonth,r.localTm.length_year,htext,hsign,
    length_twoDigits r.localTm.mday_lt,length_twoDigits r.localTm.hour_lt,
    length_twoDigits r.localTm.min_lt,length_twoDigits r.localTm.sec_lt,
    length_twoDigits (show r.gmtoff.natAbs / 60 < 100 by omega),
    length_twoDigits (show r.gmtoff.natAbs % 60 < 100 by omega)]

/-! ### The slots -/

/-- The second of the last reading, 0 before the first. -/
def lastSec (rs : List TimeReading) : ℕ := (rs.getLast?.map (·.sec)).getD 0

/-- The readings that found another second than the one before. -/
def seconds (rs : List TimeReading) : List TimeReading :=
  rs.foldl (fun s r => if lastSec s = r.sec then s else s ++ [r]) []

/-- The texts of the readings in turn, numbered from 1; number 0 is what an array starts with. -/
def entry (size : ℕ) (f : TimeReading → Bytes) (s : List TimeReading) (k : ℕ) : Bytes :=
  match k with
  | 0 => List.replicate size 0
  | k + 1 => (s[k]?.map fun r => f r ++ [0]).getD []

/-- An array after the readings `s`, and the pointer into it. -/
structure Shows (size : ℕ) (f : TimeReading → Bytes) (s : List TimeReading) (m : Memory Byte)
    (p : Option ℕ) : Prop where
  holds : RingRows.Holds m TIME_SLOTS size (s.length + 1) (entry size f s)
  within : m.Within (TIME_SLOTS * size)
  pointer : p = if s = [] then none else some (RingRows.place TIME_SLOTS size s.length)

/-- The cache after the readings `s`. -/
structure Cached (s : List TimeReading) (c : TimeCache) : Prop where
  slot : c.slot = s.length % TIME_SLOTS
  sec : (c.cachedTime c.slot).sec = lastSec s
  http : Shows httpTimeSize (fun r => r.gmt.httpDate) s c.cachedHttpTime c.httpTime
  errLog : Shows errLogTimeSize (fun r => r.localTm.errLogTime) s c.cachedErrLogTime c.errLogTime
  httpLog : Shows httpLogTimeSize (fun r => r.localTm.httpLogTime r.gmtoff) s c.cachedHttpLogTime
    c.httpLogTime

theorem lastSec_concat (s : List TimeReading) (r : TimeReading) : lastSec (s ++ [r]) = r.sec := by
  simp [lastSec]

theorem entry_concat {size : ℕ} {f : TimeReading → Bytes} {s : List TimeReading} {r : TimeReading}
    {k : ℕ} (hk : k < s.length + 1) : entry size f (s ++ [r]) k = entry size f s k := by
  cases k with
  | zero => rfl
  | succ k => simp only [entry,List.getElem?_append_left (Nat.lt_of_succ_lt_succ hk)]

theorem entry_last (size : ℕ) (f : TimeReading → Bytes) (s : List TimeReading) (r : TimeReading) :
    entry size f (s ++ [r]) (s.length + 1) = f r ++ [0] := by
  simp [entry]

theorem Shows.sprintf {size : ℕ} {f : TimeReading → Bytes} {s : List TimeReading} {m : Memory Byte}
    {p : Option ℕ} (h : Shows size f s m p) (r : TimeReading) (hlen : (f r).length + 1 = size) :
    Shows size f (s ++ [r]) (Meinheld.sprintf m ((s.length + 1) % TIME_SLOTS * size) (f r))
      (some ((s.length + 1) % TIME_SLOTS * size)) := by
  have hlast := entry_last size f s r
  have hsize : (entry size f (s ++ [r]) (s.length + 1)).length = size := by
    rw [hlast,List.length_append,List.length_singleton,hlen]
  refine ⟨?_,?_,?_⟩
  · have hold : RingRows.Holds m TIME_SLOTS size (s.length + 1) (entry size f (s ++ [r])) :=
      h.holds.congr fun k hk => entry_concat hk
    have hnew := hold.write hsize
    rw [hlast] at hnew
    rw [List.length_append,List.length_singleton]
    exact hnew
  · refine h.within.writeAll ?_
    rw [List.length_append,List.length_singleton,hlen]
    exact RingRows.place_add_le (by decide) (s.length + 1)
  · simp [RingRows.place]

/-- An update keeps the cache, and takes a slot when the second is another one. -/
theorem Cached.update {s : List TimeReading} {c : TimeCache} (h : Cached s c) (r : TimeReading) :
    Cached (if lastSec s = r.sec then s else s ++ [r]) (c.update r) := by
  by_cases hsec : lastSec s = r.sec
  · have heq : (c.cachedTime c.slot).sec = r.sec := h.sec.trans hsec
    simp only [if_pos hsec,TimeCache.update,if_pos heq]
    exact ⟨h.slot,by simpa using h.sec,h.http,h.errLog,h.httpLog⟩
  · have hne : (c.cachedTime c.slot).sec ≠ r.sec := fun heq => hsec (h.sec.symm.trans heq)
    have hslot : (if c.slot = TIME_SLOTS - 1 then 0 else c.slot + 1) = (s.length + 1) % TIME_SLOTS := by
      rw [h.slot]
      split <;> (simp only [TIME_SLOTS] at *; omega)
    simp only [if_neg hsec,TimeCache.update,if_neg hne,hslot]
    have hhttp : r.gmt.httpDate.length + 1 = httpTimeSize := by
      rw [r.gmt.length_httpDate,httpTimeSize_eq]
    have herr : r.localTm.errLogTime.length + 1 = errLogTimeSize := by
      rw [r.localTm.length_errLogTime,errLogTimeSize_eq]
    have hlog : (r.localTm.httpLogTime r.gmtoff).length + 1 = httpLogTimeSize := by
      rw [r.length_httpLogTime,httpLogTimeSize_eq]
    refine ⟨?_,?_,?_,?_,?_⟩
    · simp
    · simp [lastSec_concat]
    · dsimp only
      exact h.http.sprintf r hhttp
    · dsimp only
      exact h.errLog.sprintf r herr
    · dsimp only
      exact h.httpLog.sprintf r hlog

theorem cached_start : Cached [] {} := by
  have hshows : ∀ size f, Shows size f [] { cell := fun _ => (0 : Byte) } none := by
    intro size f
    refine ⟨fun k hk _ => ?_,fun i hi => ?_,rfl⟩
    · obtain rfl : k = 0 := by simpa using hk
      have hview : ∀ i n, (⟨fun _ => (0 : Byte),[]⟩ : Memory Byte).view i n = List.replicate n 0 := by
        intro i n
        induction n generalizing i with
        | zero => rfl
        | succ n ih => rw [Memory.view_succ,ih,List.replicate_succ]
      exact hview _ size
    · cases hi
  exact ⟨rfl,rfl,hshows _ _,hshows _ _,hshows _ _⟩

theorem cached_run (rs : List TimeReading) : Cached (seconds rs) (TimeCache.run {} rs) := by
  induction rs using List.reverseRecOn with
  | nil => exact cached_start
  | append_singleton rs r ih =>
    simp only [seconds,TimeCache.run,List.foldl_append,List.foldl_cons,List.foldl_nil]
    exact ih.update r

/-- What is read at a pointer taken after the readings `s`, once `t` more have found another second:
the text of the last reading whose slot it is. -/
theorem Shows.text {size : ℕ} {f : TimeReading → Bytes} {s t : List TimeReading} {m m' : Memory Byte}
    {p p' : Option ℕ} (h : Shows size f s m p) (h' : Shows size f (s ++ t) m' p') (hs : s ≠ []) :
    ∃ place r, p = some place ∧
      (s ++ t)[s.length - 1 + TIME_SLOTS * (t.length / TIME_SLOTS)]? = some r ∧
      m'.view place size = f r ++ [0] := by
  have hpos : 0 < s.length := List.length_pos_iff.mpr hs
  have hle : TIME_SLOTS * (t.length / TIME_SLOTS) ≤ t.length := Nat.mul_div_le _ _
  have hlt : s.length - 1 + TIME_SLOTS * (t.length / TIME_SLOTS) < (s ++ t).length := by
    rw [List.length_append]
    omega
  refine ⟨_,_,by rw [h.pointer,if_neg hs],List.getElem?_eq_getElem hlt,?_⟩
  have hlater : (s ++ t).length + 1 - 1 - s.length = t.length := by
    rw [List.length_append]
    omega
  have hview := h'.holds.view_place (by decide) (k := s.length) (by rw [List.length_append]; omega)
  rw [hlater] at hview
  rw [hview,show s.length + TIME_SLOTS * (t.length / TIME_SLOTS) =
    s.length - 1 + TIME_SLOTS * (t.length / TIME_SLOTS) + 1 by omega]
  simp only [entry,List.getElem?_eq_getElem hlt,Option.map_some,Option.getD_some]

theorem seconds_append (rs rs' : List TimeReading) : ∃ t, seconds (rs ++ rs') = seconds rs ++ t := by
  induction rs' using List.reverseRecOn with
  | nil => exact ⟨[],by simp⟩
  | append_singleton rs' r ih =>
    obtain ⟨t,ht⟩ := ih
    have hlast : seconds (rs ++ (rs' ++ [r])) =
        if lastSec (seconds (rs ++ rs')) = r.sec then seconds (rs ++ rs')
        else seconds (rs ++ rs') ++ [r] := by
      simp only [seconds,← List.append_assoc,List.foldl_append,List.foldl_cons,List.foldl_nil]
    rw [hlast,ht]
    split
    · exact ⟨t,rfl⟩
    · exact ⟨t ++ [r],List.append_assoc ..⟩

/-- A text of the time stays what it was at a pointer for 63 more seconds that are found, and is
another one with every 64th; nothing is written outside the slots. -/
theorem cached_texts (rs rs' : List TimeReading) (hs : seconds rs ≠ []) :
    let c := TimeCache.run {} rs
    let c' := TimeCache.run {} (rs ++ rs')
    let later := (seconds (rs ++ rs')).length - (seconds rs).length
    ∃ r, (seconds (rs ++ rs'))[(seconds rs).length - 1 + TIME_SLOTS * (later / TIME_SLOTS)]? = some r ∧
      (∃ p, c.httpTime = some p ∧ c'.cachedHttpTime.view p httpTimeSize = r.gmt.httpDate ++ [0]) ∧
      (∃ p, c.errLogTime = some p ∧
        c'.cachedErrLogTime.view p errLogTimeSize = r.localTm.errLogTime ++ [0]) ∧
      (∃ p, c.httpLogTime = some p ∧
        c'.cachedHttpLogTime.view p httpLogTimeSize = r.localTm.httpLogTime r.gmtoff ++ [0]) ∧
      c'.cachedHttpTime.Within (TIME_SLOTS * httpTimeSize) ∧
      c'.cachedErrLogTime.Within (TIME_SLOTS * errLogTimeSize) ∧
      c'.cachedHttpLogTime.Within (TIME_SLOTS * httpLogTimeSize) := by
  intro c c' later
  obtain ⟨t,ht⟩ := seconds_append rs rs'
  have h : Cached (seconds rs) c := cached_run rs
  have h' : Cached (seconds rs ++ t) c' := ht ▸ cached_run (rs ++ rs')
  have hlater : later = t.length := by
    simp only [later,ht,List.length_append]
    omega
  rw [hlater,ht]
  obtain ⟨p,r,hp,hr,hview⟩ := h.http.text h'.http hs
  obtain ⟨q,r',hq,hr',hview'⟩ := h.errLog.text h'.errLog hs
  obtain ⟨o,r'',ho,hr'',hview''⟩ := h.httpLog.text h'.httpLog hs
  obtain rfl : r = r' := Option.some.inj (hr.symm.trans hr')
  obtain rfl : r = r'' := Option.some.inj (hr.symm.trans hr'')
  exact ⟨r,hr,⟨p,hp,hview⟩,⟨q,hq,hview'⟩,⟨o,ho,hview''⟩,h'.http.within,h'.errLog.within,
    h'.httpLog.within⟩

/-- The date of a response that waits for 64 seconds is that of another response. -/
theorem cached_texts_waiting : ∃ (rs rs' : List TimeReading) (p : ℕ),
    (TimeCache.run {} rs).httpTime = some p ∧
    (TimeCache.run {} rs).cachedHttpTime.view p httpTimeSize =
      ascii "Thu, 01 Jan 1970 00:00:01 GMT" ++ [0] ∧
    (TimeCache.run {} (rs ++ rs')).cachedHttpTime.view p httpTimeSize =
      ascii "Thu, 01 Jan 1970 00:01:05 GMT" ++ [0] := by
  let t : Tm := { wday := 4, mday := 1, mon := 0, year := 1970, hour := 0, min := 0, sec := 1 }
  let t' : Tm := { wday := 4, mday := 1, mon := 0, year := 1970, hour := 0, min := 1, sec := 5 }
  let rs : List TimeReading := [{ sec := 1, msec := 0, gmt := t, localTm := t, isdst := false, timezone := 0 }]
  let rs' : List TimeReading := (List.range 64).map fun k =>
    { sec := k + 2, msec := 0, gmt := t', localTm := t', isdst := false, timezone := 0 }
  have hrs : seconds rs ≠ [] := by decide
  obtain ⟨r,hr,⟨p,hp,hview⟩,-⟩ := cached_texts rs [] hrs
  obtain ⟨r',hr',⟨p',hp',hview'⟩,-⟩ := cached_texts rs rs' hrs
  obtain rfl : p = p' := Option.some.inj (hp.symm.trans hp')
  have hfirst := congrArg (Option.map fun r : TimeReading => r.gmt.httpDate) hr
  have hlast := congrArg (Option.map fun r : TimeReading => r.gmt.httpDate) hr'
  rw [show Option.map _ _ = some (ascii "Thu, 01 Jan 1970 00:00:01 GMT") by decide +kernel,
    Option.map_some,Option.some.injEq] at hfirst
  rw [show Option.map _ _ = some (ascii "Thu, 01 Jan 1970 00:01:05 GMT") by decide +kernel,
    Option.map_some,Option.some.injEq] at hlast
  rw [← hfirst,List.append_nil] at hview
  rw [← hlast] at hview'
  exact ⟨rs,rs',p,hp,hview,hview'⟩

end Meinheld
