import Meinheld.RequestPieces

/-! Sequences of `write2buf` on one buffer, and the URL that `url_cb` puts together. -/
namespace Meinheld

/-- The bytes `memcpy` is told to copy, in the arithmetic of `size_t`. -/
def Buffer.copyLength (b : Buffer) (l : ℕ) : ℕ :=
  let size := b.grow (b.len + l)
  if b.len + l ≥ size then (2 ^ 64 + size - b.len - 1) % 2 ^ 64 else l

/-- The calls of `write2buf` with `cs`, one after another. -/
def Buffer.writes (b : Buffer) (cs : List Bytes) : Buffer := cs.foldl (fun b c => (write2buf b c).2) b

/-- No call counts beyond an `int`. -/
def Buffer.FitsInt (b : Buffer) : List Bytes → Prop
  | [] => True
  | c :: cs => b.len + c.length + 1 ≤ 2 ^ 31 - 1 ∧ (write2buf b c).2.FitsInt cs

/-- The calls of `url_cb` for the pieces of a URL, up to the first that fails. -/
def urlCalls : List Bytes → Request → Option (Bool × Request)
  | [], req => some (true,req)
  | buf :: bufs, req =>
    match urlCb buf req with
    | some (true,req) => urlCalls bufs req
    | r => r

/-! ### One call -/

/-- The buffer holds what its limit `n` leaves of `d`, and is no larger than the limit allows. -/
structure Buffer.Cuts (b : Buffer) (n : ℕ) (d : Bytes) : Prop where
  limit : b.limit = n
  bufSize : b.bufSize ≤ n + 1
  buf : b.buf = d.take n

section Write
variable {b : Buffer} {n l : ℕ} {c d : Bytes}

theorem intToSize_of_lt (h : n < 2 ^ 31) : intToSize n = n := by
  unfold intToSize
  have hmod : n % 2 ^ 32 = n := Nat.mod_eq_of_lt (by omega)
  simp only [hmod,h,if_true]

theorem Buffer.grow_cases (hb : b.bufSize ≤ b.limit + 1) (hl : l + 1 ≤ 2 ^ 31 - 1) :
    l ≤ b.limit ∧ l < b.grow l ∧ b.grow l ≤ b.limit + 1 ∨ b.limit < l ∧ b.grow l = b.limit + 1 := by
  have hint : intToSize (l + 1) = l + 1 := intToSize_of_lt (by omega)
  unfold Buffer.grow
  simp only [hint]
  repeat' split
  all_goals omega

theorem Buffer.Cuts.len (h : b.Cuts n d) : b.len = min n d.length := by
  rw [Buffer.len,h.buf,List.length_take]

/-- A call of `write2buf`. -/
theorem Buffer.Cuts.write (h : b.Cuts n d) (hl : b.len + c.length + 1 ≤ 2 ^ 31 - 1) :
    (write2buf b c).2.Cuts n (d ++ c) ∧ (write2buf b c).2.len < (write2buf b c).2.bufSize ∧
      b.len + b.copyLength c.length = (write2buf b c).2.len ∧
      (write2buf b c).1 = if b.len + c.length ≤ n then .WRITE_OK else .LIMIT_OVER := by
  obtain ⟨hlimit,hsize,hbuf⟩ := h
  have hlen : b.len = min n d.length := Buffer.Cuts.len ⟨hlimit,hsize,hbuf⟩
  have hnew : ∀ (s : ℕ) (e : Bytes), Buffer.len { b with bufSize := s,buf := b.buf ++ e } =
      b.len + e.length := fun _ _ => List.length_append
  unfold Buffer.copyLength write2buf
  simp only
  rcases Buffer.grow_cases (hlimit ▸ hsize) hl with ⟨hle,hlt,hgrow⟩ | ⟨hover,hgrow⟩
  · rw [if_neg (by omega),if_neg (by omega),if_pos (by omega)]
    have hc : c.take (n - d.length) = c := by
      rcases Nat.le_total d.length n with hd | hd
      · exact List.take_of_length_le (by omega)
      · rw [List.length_eq_zero_iff.mp (by omega : c.length = 0)]
        exact List.take_nil
    refine ⟨⟨hlimit,by simp only; omega,?_⟩,?_,?_,rfl⟩
    · rw [List.take_append,hc,← hbuf]
    · simp only [hnew]
      exact hlt
    · simp only [hnew]
  · rw [if_pos (by omega),if_pos (by omega),if_neg (by omega)]
    have hcut : b.grow (b.len + c.length) - b.len - 1 = n - d.length := by omega
    have hsub : 2 ^ 64 + b.grow (b.len + c.length) - b.len - 1 = n - d.length + 2 ^ 64 := by omega
    have hmod : (n - d.length + 2 ^ 64) % 2 ^ 64 = n - d.length := by
      rw [Nat.add_mod_right]
      exact Nat.mod_eq_of_lt (by omega)
    refine ⟨⟨hlimit,by simp only; omega,?_⟩,?_,?_,rfl⟩
    · rw [List.take_append,hcut,← hbuf]
    · simp only [hnew,List.length_take]
      omega
    · simp only [hsub,hmod,hnew,List.length_take]
      omega

end Write

/-! ### Sequences of calls -/

theorem Buffer.Cuts.writes {b : Buffer} {n : ℕ} {d : Bytes} {cs : List Bytes} (h : b.Cuts n d)
    (hcs : b.FitsInt cs) : (b.writes cs).Cuts n (d ++ cs.flatten) := by
  induction cs generalizing b d with
  | nil => simpa [Buffer.writes] using h
  | cons c cs ih =>
    have hwrites : b.writes (c :: cs) = (write2buf b c).2.writes cs := rfl
    rw [hwrites,List.flatten_cons,← List.append_assoc]
    exact ih (h.write hcs.1).1 hcs.2

theorem Buffer.FitsInt.append {b : Buffer} {cs ds : List Bytes} :
    b.FitsInt (cs ++ ds) ↔ b.FitsInt cs ∧ (b.writes cs).FitsInt ds := by
  induction cs generalizing b with
  | nil => simp [Buffer.FitsInt,Buffer.writes]
  | cons c cs ih =>
    have hwrites : b.writes (c :: cs) = (write2buf b c).2.writes cs := rfl
    simp only [List.cons_append,Buffer.FitsInt,ih,hwrites,and_assoc]

theorem newBuffer_cuts {bufSize limit : ℕ} (h : bufSize ≤ (newBuffer bufSize limit).limit) :
    (newBuffer bufSize limit).Cuts (newBuffer bufSize limit).limit [] :=
  ⟨rfl,h.trans (Nat.le_succ _),List.take_nil.symm⟩

/-! ### URLs -/

theorem urlCb_false {req : Request} {buf : Bytes} (hb : (urlBuffer req).Sound)
    (h : LIMIT_PATH < (urlBuffer req).len + buf.length) :
    ∃ req', urlCb buf req = some (false,req') ∧ req'.badRequestCode = 400 := by
  have hover : (write2buf (urlBuffer req) buf).1 = .LIMIT_OVER := by
    have hnot : (write2buf (urlBuffer req) buf).1 ≠ .WRITE_OK := fun hok => by
      have := (hb.write_iff buf).mp hok
      omega
    unfold write2buf at hnot ⊢
    simp only at hnot ⊢
    split at hnot
    next hge => rw [if_pos hge]
    · exact absurd rfl hnot
  unfold urlBuffer at hover
  exact ⟨_,by simp only [urlCb,hover]; rfl,rfl⟩

/-- The pieces of a URL are taken exactly as long as they stay within the limit. -/
theorem urlCalls_cases {req : Request} (hb : (urlBuffer req).Sound)
    (hlen : (urlBuffer req).len ≤ LIMIT_PATH) (bufs : List Bytes) :
    if (urlBuffer req).len + bufs.flatten.length ≤ LIMIT_PATH then
      ∃ req', urlCalls bufs req = some (true,req') ∧
        (urlBuffer req').buf = (urlBuffer req).buf ++ bufs.flatten
    else ∃ req', urlCalls bufs req = some (false,req') ∧ req'.badRequestCode = 400 := by
  induction bufs generalizing req with
  | nil =>
    rw [if_pos (by simpa using hlen)]
    exact ⟨req,rfl,by simp⟩
  | cons buf bufs ih =>
    rw [List.flatten_cons,List.length_append]
    by_cases hle : (urlBuffer req).len + buf.length ≤ LIMIT_PATH
    · have hok := (hb.write_iff buf).mpr hle
      obtain ⟨hbuf,hsound⟩ := hb.write hok
      have hlen' : (write2buf (urlBuffer req) buf).2.len = (urlBuffer req).len + buf.length := by
        rw [Buffer.len,hbuf,List.length_append,Buffer.len]
      have hcall := urlCb_true.mpr ⟨hok,rfl⟩
      have hrest := @ih { req with path := some (write2buf (urlBuffer req) buf).2 } hsound
        (hlen'.trans_le hle)
      have hsame : urlBuffer { req with path := some (write2buf (urlBuffer req) buf).2 } =
          (write2buf (urlBuffer req) buf).2 := rfl
      rw [hsame,hlen',hbuf,add_assoc,List.append_assoc] at hrest
      simpa only [urlCalls,hcall] using hrest
    · obtain ⟨req',hcall,hcode⟩ := urlCb_false hb (not_le.mp hle)
      rw [if_neg (by omega)]
      exact ⟨req',by simp only [urlCalls,hcall],hcode⟩

/-- After each call of `write2buf` the buffer holds the bytes so far up to its limit, with room for
one more in an allocation that the limit bounds and the copy stays inside of; the call says
whether the limit was passed. So a URL is accepted exactly up to `LIMIT_PATH` bytes. -/
theorem growable_buffer :
    (∀ (bufSize limit : ℕ) (cs : List Bytes) (c : Bytes),
      bufSize ≤ (newBuffer bufSize limit).limit → (newBuffer bufSize limit).FitsInt (cs ++ [c]) →
      let n := (newBuffer bufSize limit).limit
      let b := (newBuffer bufSize limit).writes cs
      let r := write2buf b c
      r.2.buf = (cs ++ [c]).flatten.take n ∧ r.2.len < r.2.bufSize ∧ r.2.bufSize ≤ n + 1 ∧
        b.len + b.copyLength c.length = r.2.len ∧
        r.1 = if b.len + c.length ≤ n then .WRITE_OK else .LIMIT_OVER) ∧
    ∀ (req : Request) (bufs : List Bytes), req.path = none →
      if bufs.flatten.length ≤ LIMIT_PATH then
        ∃ req', urlCalls bufs req = some (true,req') ∧ (urlBuffer req').buf = bufs.flatten
      else ∃ req', urlCalls bufs req = some (false,req') ∧ req'.badRequestCode = 400 := by
  constructor
  · intro bufSize limit cs c hsize hfits
    obtain ⟨hcs,hc,-⟩ := Buffer.FitsInt.append.mp hfits
    have hcuts := (newBuffer_cuts hsize).writes hcs
    obtain ⟨hcuts',hlt,hcopy,hres⟩ := hcuts.write hc
    exact ⟨by simpa using hcuts'.buf,hlt,hcuts'.bufSize,hcopy,hres⟩
  · intro req bufs hpath
    have hbuffer : urlBuffer req = newBuffer 1024 LIMIT_PATH := by rw [urlBuffer,hpath,Option.getD_none]
    have hsound : (urlBuffer req).Sound := hbuffer ▸ newBuffer_sound
    have hlen : (urlBuffer req).len ≤ LIMIT_PATH := by
      rw [hbuffer]
      exact Nat.zero_le _
    have hcases := urlCalls_cases hsound hlen bufs
    rw [hbuffer] at hcases
    simpa [newBuffer,Buffer.len] using hcases

/-- A buffer that starts with nothing and cuts its second write, and a URL in two pieces. -/
theorem growable_buffer_url :
    (write2buf ((newBuffer 0 3).writes [[1,2]]) [3,4]).2.buf = [1,2,3] ∧
    (write2buf ((newBuffer 0 3).writes [[1,2]]) [3,4]).1 = .LIMIT_OVER ∧
    ∃ req', urlCalls [[47],[65,66]] {} = some (true,req') ∧ (urlBuffer req').buf = [47,65,66] := by
  obtain ⟨hbuf,-,-,-,hres⟩ := growable_buffer.1 0 3 [[1,2]] [3,4] (by decide)
    ⟨by decide,by decide,trivial⟩
  exact ⟨hbuf,hres,growable_buffer.2 {} [[47],[65,66]] rfl⟩

end Meinheld
