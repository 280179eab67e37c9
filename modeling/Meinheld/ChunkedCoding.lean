import Mathlib.Tactic

/-! The chunked transfer coding of HTTP/1.1: a decoder for its grammar, and what it makes of chunks
written one after the other. -/
namespace ChunkedCoding

abbrev Octets := List UInt8

abbrev crlf : Octets := [13,10]

/-- The value of a `HEXDIG`. -/
def hexDigit? (c : UInt8) : Option ℕ :=
  if 48 ≤ c ∧ c ≤ 57 then some (c.toNat - 48)
  else if 65 ≤ c ∧ c ≤ 70 then some (c.toNat - 55)
  else if 97 ≤ c ∧ c ≤ 102 then some (c.toNat - 87)
  else none

/-- The digits at the start of a text, added to `acc`. -/
def readDigits (acc : ℕ) : Octets → ℕ × Octets
  | [] => (acc,[])
  | c :: s =>
    match hexDigit? c with
    | some d => readDigits (acc * 16 + d) s
    | none => (acc,c :: s)

/-- `chunk-size = 1*HEXDIG`. -/
def readSize : Octets → Option (ℕ × Octets)
  | [] => none
  | c :: s => if (hexDigit? c).isSome then some (readDigits 0 (c :: s)) else none

def expectCrlf : Octets → Option Octets
  | 13 :: 10 :: s => some s
  | _ => none

def dropLine : Octets → Option Octets
  | [] => none
  | 13 :: 10 :: s => some s
  | _ :: s => dropLine s

/-- `[chunk-ext] CRLF`. -/
def endSizeLine : Octets → Option Octets
  | 59 :: s => dropLine s
  | s => expectCrlf s

/-- `trailer-part CRLF`, with one unit of fuel for each line. -/
def dropTrailer : ℕ → Octets → Option Octets
  | 0, _ => none
  | fuel + 1, s =>
    match expectCrlf s with
    | some r => some r
    | none => (dropLine s).bind (dropTrailer fuel)

def decodeFuel : ℕ → Octets → Option (Octets × Octets)
  | 0, _ => none
  | fuel + 1, s => do
    let (n,s) ← readSize s
    let s ← endSizeLine s
    if n = 0 then do
      let r ← dropTrailer (s.length + 1) s
      pure ([],r)
    else if s.length < n then none
    else do
      let r ← expectCrlf (s.drop n)
      let (out,r) ← decodeFuel fuel r
      pure (s.take n ++ out,r)

/-- `chunked-body`. -/
def decode (s : Octets) : Option (Octets × Octets) := decodeFuel (s.length + 1) s

/-- A size in hexadecimal, without leading zeros. -/
def hexSize (n : ℕ) : Octets := (Nat.toDigits 16 n).map Char.toUInt8

/-- A chunk without extensions. -/
def chunk (data : Octets) : Octets := hexSize data.length ++ crlf ++ data ++ crlf

/-- The last chunk, with no trailer. -/
abbrev lastChunk : Octets := 48 :: crlf ++ crlf

theorem hexDigit?_digitChar {d : ℕ} (h : d < 16) :
    hexDigit? (Nat.digitChar d).toUInt8 = some d := by
  interval_cases d <;> decide

theorem hexSize_of_lt {n : ℕ} (h : n < 16) : hexSize n = [(Nat.digitChar n).toUInt8] := by
  simp [hexSize,Nat.toDigits_of_lt_base h]

theorem hexSize_of_le {n : ℕ} (h : 16 ≤ n) :
    hexSize n = hexSize (n / 16) ++ [(Nat.digitChar (n % 16)).toUInt8] := by
  simp [hexSize,Nat.toDigits_of_base_le (by decide) h]

theorem readDigits_hexSize (n acc : ℕ) (s : Octets) :
    readDigits acc (hexSize n ++ s) = readDigits (acc * 16 ^ (hexSize n).length + n) s := by
  induction n using Nat.strong_induction_on generalizing acc s with
  | _ n ih =>
    rcases Nat.lt_or_ge n 16 with h | h
    · simp [hexSize_of_lt h,readDigits,hexDigit?_digitChar h]
    · have hdiv : n / 16 < n := by omega
      rw [hexSize_of_le h,List.append_assoc,ih (n / 16) hdiv,List.singleton_append,readDigits,
        hexDigit?_digitChar (Nat.mod_lt n (by decide)),List.length_append,List.length_singleton,
        Nat.pow_succ]
      have hval : (acc * 16 ^ (hexSize (n / 16)).length + n / 16) * 16 + n % 16 =
          acc * (16 ^ (hexSize (n / 16)).length * 16) + n := by
        rw [Nat.add_mul,Nat.mul_assoc,Nat.add_assoc,Nat.div_add_mod' n 16]
      simp only [hval]

theorem hexDigit?_head_hexSize (n : ℕ) : ∃ c t, hexSize n = c :: t ∧ (hexDigit? c).isSome := by
  induction n using Nat.strong_induction_on with
  | _ n ih =>
    rcases Nat.lt_or_ge n 16 with h | h
    · exact ⟨_,[],hexSize_of_lt h,by simp [hexDigit?_digitChar h]⟩
    · obtain ⟨c,t,hc,hd⟩ := ih (n / 16) (by omega)
      exact ⟨c,t ++ [(Nat.digitChar (n % 16)).toUInt8],by rw [hexSize_of_le h,hc]; rfl,hd⟩

theorem readSize_hexSize (n : ℕ) (s : Octets) (hs : readDigits n s = (n,s)) :
    readSize (hexSize n ++ s) = some (n,s) := by
  have hd : readDigits 0 (hexSize n ++ s) = (n,s) := by
    rw [readDigits_hexSize]
    simpa using hs
  obtain ⟨c,t,hc,hsome⟩ := hexDigit?_head_hexSize n
  rw [hc] at hd ⊢
  simp only [List.cons_append,readSize,hsome,if_true]
  simpa using hd

theorem readSize_line (n : ℕ) (s : Octets) :
    readSize (hexSize n ++ crlf ++ s) = some (n,crlf ++ s) := by
  rw [List.append_assoc]
  exact readSize_hexSize n _ rfl

@[simp] theorem expectCrlf_crlf (s : Octets) : expectCrlf (crlf ++ s) = some s := rfl
@[simp] theorem endSizeLine_crlf (s : Octets) : endSizeLine (crlf ++ s) = some s := rfl

theorem decodeFuel_chunk {data : Octets} (hd : data ≠ []) (fuel : ℕ) (s : Octets) :
    decodeFuel (fuel + 1) (chunk data ++ s) =
      (decodeFuel fuel s).map fun r => (data ++ r.1,r.2) := by
  have hlen : data.length ≠ 0 := by simpa using hd
  have hlt : ¬(data ++ (crlf ++ s)).length < data.length := by
    rw [List.length_append]
    omega
  have hsplit : chunk data ++ s = hexSize data.length ++ crlf ++ (data ++ (crlf ++ s)) := by
    simp [chunk]
  rw [hsplit,decodeFuel,readSize_line]
  simp only [Option.bind_eq_bind,Option.bind_some,endSizeLine_crlf,if_neg hlen,if_neg hlt,
    List.drop_left,List.take_left,expectCrlf_crlf]
  cases decodeFuel fuel s <;> rfl

theorem decodeFuel_chunk_broken {data : Octets} (hd : data ≠ []) (fuel : ℕ) {s : Octets}
    (hs : expectCrlf s = none) :
    decodeFuel (fuel + 1) (hexSize data.length ++ crlf ++ data ++ s) = none := by
  have hlen : data.length ≠ 0 := by simpa using hd
  rw [List.append_assoc,decodeFuel,readSize_line]
  have hlt : ¬(data ++ s).length < data.length := by
    rw [List.length_append]
    omega
  simp only [Option.bind_eq_bind,Option.bind_some,endSizeLine_crlf,if_neg hlen,if_neg hlt,
    List.drop_left,hs,Option.bind_none]

theorem decodeFuel_last (fuel : ℕ) (s : Octets) :
    decodeFuel (fuel + 1) (lastChunk ++ s) = some ([],s) := by
  simp [decodeFuel,readSize,readDigits,hexDigit?,endSizeLine,expectCrlf,dropTrailer]

theorem decodeFuel_chunks (ds : List Octets) (hds : ∀ d ∈ ds, d ≠ []) (fuel : ℕ) (s : Octets) :
    decodeFuel (ds.length + fuel) (ds.flatMap chunk ++ s) =
      (decodeFuel fuel s).map fun r => (ds.flatten ++ r.1,r.2) := by
  induction ds with
  | nil => simp
  | cons d ds ih =>
    have hfuel : (d :: ds).length + fuel = (ds.length + fuel) + 1 := by
      simp only [List.length_cons]
      omega
    rw [hfuel,List.flatMap_cons,List.append_assoc,decodeFuel_chunk (hds d (by simp)),
      ih fun e he => hds e (by simp [he])]
    cases decodeFuel fuel s <;> simp

theorem length_le_flatMap_chunk (ds : List Octets) : ds.length ≤ (ds.flatMap chunk).length := by
  induction ds with
  | nil => simp
  | cons d ds ih =>
    simp only [List.flatMap_cons,List.length_append,List.length_cons,chunk]
    omega

theorem decode_chunks {ds : List Octets} (hds : ∀ d ∈ ds, d ≠ []) (s : Octets) :
    ∃ fuel, s.length < fuel ∧ decode (ds.flatMap chunk ++ s) =
      (decodeFuel fuel s).map fun r => (ds.flatten ++ r.1,r.2) := by
  have hle := length_le_flatMap_chunk ds
  refine ⟨(ds.flatMap chunk).length + s.length + 1 - ds.length,by omega,?_⟩
  rw [← decodeFuel_chunks ds hds]
  simp only [decode,List.length_append]
  congr 1
  omega

/-- Chunks with data and the last chunk decode to the data; what follows is left. -/
theorem decode_chunks_last {ds : List Octets} (hds : ∀ d ∈ ds, d ≠ []) (s : Octets) :
    decode (ds.flatMap chunk ++ (lastChunk ++ s)) = some (ds.flatten,s) := by
  obtain ⟨fuel,hfuel,h⟩ := decode_chunks hds (lastChunk ++ s)
  obtain ⟨k,rfl⟩ : ∃ k, fuel = k + 1 := ⟨fuel - 1,by omega⟩
  rw [h,decodeFuel_last k s]
  simp

/-- A chunk whose data is not followed by CRLF breaks the body. -/
theorem decode_chunks_broken {ds : List Octets} (hds : ∀ d ∈ ds, d ≠ []) {data s : Octets}
    (hd : data ≠ []) (hs : expectCrlf s = none) :
    decode (ds.flatMap chunk ++ (hexSize data.length ++ crlf ++ data ++ s)) = none := by
  obtain ⟨fuel,hfuel,h⟩ := decode_chunks hds (hexSize data.length ++ crlf ++ data ++ s)
  obtain ⟨k,rfl⟩ : ∃ k, fuel = k + 1 := ⟨fuel - 1,by omega⟩
  rw [h,decodeFuel_chunk_broken hd k hs]
  rfl

theorem chunk_nil : chunk [] = lastChunk := by decide

/-- Chunks that decode to their data with nothing left are not empty. -/
theorem nonempty_of_decode {ds : List Octets}
    (h : decode (ds.flatMap chunk ++ lastChunk) = some (ds.flatten,[])) : ∀ d ∈ ds, d ≠ [] := by
  rintro d hd rfl
  obtain ⟨pre,post,rfl,hpre⟩ := List.eq_append_cons_of_mem hd
  have hlast := decode_chunks_last (fun e he => ne_of_mem_of_not_mem he hpre)
    (post.flatMap chunk ++ lastChunk)
  rw [List.flatMap_append,List.flatMap_cons,chunk_nil,List.append_assoc,List.append_assoc,
    hlast] at h
  simp at h

theorem expectCrlf_cr_hexSize (n : ℕ) (s : Octets) : expectCrlf (13 :: (hexSize n ++ s)) = none := by
  obtain ⟨c,t,hc,hd⟩ := hexDigit?_head_hexSize n
  have h10 : c ≠ 10 := by
    rintro rfl
    simp [hexDigit?] at hd
  simp [hc,expectCrlf,h10]

/-- What may follow a chunk does not complete its CRLF. -/
theorem expectCrlf_cr_chunks (ds : List Octets) :
    expectCrlf (13 :: (ds.flatMap chunk ++ lastChunk)) = none := by
  cases ds with
  | nil => rfl
  | cons d ds =>
    simp only [List.flatMap_cons,chunk,List.append_assoc]
    exact expectCrlf_cr_hexSize _ _

end ChunkedCoding