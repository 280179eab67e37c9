import Meinheld.HttpRequestParser

/-! `PATH_INFO`: the path of a request target, percent-decoded. -/
namespace Meinheld

/-- The value of a hexadecimal digit. -/
def hexDigit (c : Byte) : Option ℕ :=
  if isNum c then some (c.toNat - 48)
  else if 'a'.toUInt8 ≤ lower c && lower c ≤ 'f'.toUInt8 then some ((lower c).toNat - 87)
  else none

/-- The path of a target with each `%XX` replaced once, from left to right; `none` when a `%` is
not followed by two hexadecimal digits. -/
def decodePath : Bytes → Option Bytes
  | [] => some []
  | c :: rest =>
    if c = '?'.toUInt8 ∨ c = '#'.toUInt8 then some []
    else if c = '%'.toUInt8 then
      match rest with
      | c1 :: c2 :: rest =>
        (hexDigit c1).bind fun h => (hexDigit c2).bind fun l =>
          (decodePath rest).map (UInt8.ofNat (h * 16 + l) :: ·)
      | _ => none
    else (decodePath rest).map (c :: ·)

/-- A digit of the percent-encoding. -/
def hexChar (n : ℕ) : Byte := UInt8.ofNat (if n < 10 then 48 + n else 55 + n)

/-- Every byte percent-encoded. -/
def percentEncode (s : Bytes) : Bytes :=
  s.flatMap fun c => ['%'.toUInt8,hexChar (c.toNat / 16),hexChar (c.toNat % 16)]

theorem decodePath_escape (c1 c2 : Byte) (rest : Bytes) : decodePath ('%'.toUInt8 :: c1 :: c2 :: rest) =
    (hexDigit c1).bind fun h => (hexDigit c2).bind fun l =>
      (decodePath rest).map (UInt8.ofNat (h * 16 + l) :: ·) := by
  rw [decodePath,if_neg (by decide),if_pos rfl]

theorem hexDigit_hexChar (c : Byte) : hexDigit (hexChar (c.toNat / 16)) = some (c.toNat / 16) ∧
    hexDigit (hexChar (c.toNat % 16)) = some (c.toNat % 16) := by
  revert c
  decide +kernel

theorem hex2int_of_hexDigit {c : Byte} {n : ℕ} (h : hexDigit c = some n) :
    hex2int c = n ∧ n < 16 := by
  have hall : ∀ c, (hexDigit c).all fun n => decide (hex2int c = n ∧ n < 16) := by decide +kernel
  have hc := hall c
  rw [h] at hc
  simpa using hc

theorem unescape_eq {c1 c2 : Byte} {h l : ℕ} (hh : hexDigit c1 = some h) (hl : hexDigit c2 = some l) :
    unescape c1 c2 = UInt8.ofNat (h * 16 + l) := by
  obtain ⟨e1,b1⟩ := hex2int_of_hexDigit hh
  obtain ⟨e2,b2⟩ := hex2int_of_hexDigit hl
  unfold unescape
  rw [e1,e2]
  congr 1
  omega

theorem decodePath_percentEncode (s : Bytes) : decodePath (percentEncode s) = some s := by
  induction s with
  | nil => rfl
  | cons c s ih =>
    obtain ⟨h1,h2⟩ := hexDigit_hexChar c
    have hc : UInt8.ofNat (c.toNat / 16 * 16 + c.toNat % 16) = c := by
      rw [Nat.div_add_mod']
      simp
    have hcons : percentEncode (c :: s) = '%'.toUInt8 :: hexChar (c.toNat / 16) ::
        hexChar (c.toNat % 16) :: percentEncode s := rfl
    rw [hcons,decodePath_escape,h1,Option.bind_some,h2,Option.bind_some,ih,hc]
    rfl

theorem setPathLoop_stop {g : Globals} {env : Environ} {c : Byte}
    (h : c = '?'.toUInt8 ∨ c = '#'.toUInt8) (rest t : Bytes) :
    (setPathLoop g env (c :: rest) t).2 = t := by
  unfold setPathLoop
  rcases h with rfl | rfl <;> rcases rest with _ | ⟨c1,_ | ⟨c2,rest⟩⟩ <;> rfl

theorem setPathLoop_cons {g : Globals} {env : Environ} {c : Byte}
    (h : ¬(c = '?'.toUInt8 ∨ c = '#'.toUInt8)) (hp : c ≠ '%'.toUInt8) (rest t : Bytes) :
    setPathLoop g env (c :: rest) t = setPathLoop g env rest (t ++ [c]) := by
  rw [not_or] at h
  conv_lhs => unfold setPathLoop
  rcases rest with _ | ⟨c1,_ | ⟨c2,rest⟩⟩ <;> simp only [hp,h.1,h.2,if_false]

theorem setPathLoop_decodePath {g : Globals} {env : Environ} {s t p : Bytes}
    (h : decodePath s = some p) : (setPathLoop g env s t).2 = t ++ p := by
  fun_induction decodePath s generalizing t p with
  | case1 =>
    obtain rfl := Option.some.inj h
    simp [setPathLoop]
  | case2 c rest hstop =>
    obtain rfl := Option.some.inj h
    rw [setPathLoop_stop hstop,List.append_nil]
  | case3 hstop c1 c2 rest ih =>
    obtain ⟨hi,hh,h⟩ := Option.bind_eq_some_iff.mp h
    obtain ⟨lo,hl,h⟩ := Option.bind_eq_some_iff.mp h
    obtain ⟨q,hq,rfl⟩ := Option.map_eq_some_iff.mp h
    rw [setPathLoop,if_pos rfl,ih hq,unescape_eq hh hl]
    simp
  | case4 => cases h
  | case5 c rest hstop hp ih =>
    obtain ⟨q,hq,rfl⟩ := Option.map_eq_some_iff.mp h
    rw [setPathLoop_cons hstop hp,ih hq]
    simp

theorem length_urldecode_le (s : Bytes) : (urldecode s).length ≤ s.length := by
  fun_induction urldecode s <;> grind

theorem urldecode_eq_self_iff (s : Bytes) :
    urldecode s = s ↔ '%'.toUInt8 ∉ s.take (s.length - 2) := by
  fun_induction urldecode s with
  | case1 => simp
  | case2 c => simp
  | case3 c d => simp
  | case4 c1 c2 rest ih =>
    constructor
    · intro h
      have hlen := congrArg List.length h
      have hle := length_urldecode_le rest
      simp only [List.length_cons] at hlen
      omega
    · intro h
      exact absurd (by simp) h
  | case5 c c1 c2 rest hc ih =>
    have htake : (c :: c1 :: c2 :: rest).take ((c :: c1 :: c2 :: rest).length - 2) =
        c :: (c1 :: c2 :: rest).take ((c1 :: c2 :: rest).length - 2) := by simp
    rw [htake,List.mem_cons,not_or,List.cons_eq_cons,ih]
    simp [Ne.symm hc]

/-- `set_path` stores the path decoded once exactly when the decoded path has no `%` with two bytes
behind it; so does a byte string come back that was percent-encoded. -/
theorem pathInfo_iff (g : Globals) (env : Environ) :
    (∀ target p, decodePath target = some p →
      ((setPath g env target).get? (ascii "PATH_INFO") = some p ↔ '%'.toUInt8 ∉ p.take (p.length - 2))) ∧
    ∀ s, (setPath g env (percentEncode s)).get? (ascii "PATH_INFO") = some s ↔
      '%'.toUInt8 ∉ s.take (s.length - 2) := by
  have hpath : ∀ target p, decodePath target = some p →
      ((setPath g env target).get? (ascii "PATH_INFO") = some p ↔
        '%'.toUInt8 ∉ p.take (p.length - 2)) := by
    intro target p h
    rw [setPath,Environ.get?_set_self,setPathLoop_decodePath h,List.nil_append,Option.some.injEq,
      urldecode_eq_self_iff]
  exact ⟨hpath,fun s => hpath _ _ (decodePath_percentEncode s)⟩

theorem pathInfo_blank : (setPath {} [] (ascii "/a%20b?x=1")).get? (ascii "PATH_INFO") =
    some (ascii "/a b") :=
  ((pathInfo_iff {} []).1 _ _ (by decide +kernel)).mpr (by decide)

/-- The path `/%2541` is stored as `/A`, and the bytes `%41` come back as `A`. -/
theorem not_pathInfo : ¬∀ (g : Globals) (env : Environ),
    (∀ target p, decodePath target = some p →
      (setPath g env target).get? (ascii "PATH_INFO") = some p) ∧
    ∀ s, (setPath g env (percentEncode s)).get? (ascii "PATH_INFO") = some s := by
  intro h
  obtain ⟨h1,-⟩ := h {} []
  have hp := h1 (ascii "/%2541") (ascii "/%41") (by decide +kernel)
  revert hp
  decide +kernel

end Meinheld
