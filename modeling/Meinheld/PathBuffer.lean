import Meinheld.BufferWrites
import Meinheld.HeaderLines
import Meinheld.Memory
import Meinheld.PathInfo

/-! `set_path`, `set_query` and `urldecode` on the memory of a path buffer: the places they touch,
and the query they find. -/
namespace Meinheld

/-! ### On the memory -/

/-- The loop of `set_query`: the value of `slen`. -/
def querySlenAt : ℕ → ℕ → Memory Byte → ℕ × Memory Byte
  | 0, _, m => (0,m)
  | len + 1, buf, m =>
    if m.cell buf = '#'.toUInt8 then (1,m.read buf)
    else
      let r := querySlenAt len (buf + 1) (m.read buf)
      (r.1 + 1,r.2)

/-- `set_query`. -/
def setQueryAt (env : Environ) (buf len : ℕ) (m : Memory Byte) : Environ × Memory Byte :=
  let r := querySlenAt len buf m
  if r.1 > 1 then
    (env.set (ascii "QUERY_STRING") (cstr (r.2.view buf (r.1 - 1))),r.2.readAll buf (r.1 - 1))
  else (env,r.2)

/-- The loop of `set_path`, with its `len`, `buf` and `t`; it returns the last `t`. -/
def setPathLoopAt (env : Environ) : ℕ → ℕ → ℕ → Memory Byte → Environ × ℕ × Memory Byte
  | len + 3, buf, t, m =>
    let c := m.cell buf
    let m := m.read buf
    if c = '%'.toUInt8 then
      let c1 := m.cell (buf + 1)
      let m := m.read (buf + 1)
      let c2 := m.cell (buf + 2)
      let m := m.read (buf + 2)
      setPathLoopAt env len (buf + 3) (t + 1) (m.write t (unescape c1 c2))
    else if c = '?'.toUInt8 then
      let r := setQueryAt env (buf + 1) (len + 3) m
      (r.1,t,r.2)
    else if c = '#'.toUInt8 then (env,t,m)
    else setPathLoopAt env (len + 2) (buf + 1) (t + 1) (m.write t c)
  | len + 1, buf, t, m =>
    let c := m.cell buf
    let m := m.read buf
    if c = '?'.toUInt8 then
      let r := setQueryAt env (buf + 1) (len + 1) m
      (r.1,t,r.2)
    else if c = '#'.toUInt8 then (env,t,m)
    else setPathLoopAt env len (buf + 1) (t + 1) (m.write t c)
  | 0, _, t, m => (env,t,m)

/-- `urldecode`, with its `len`, `buf` and `t`. -/
def urldecodeAt : ℕ → ℕ → ℕ → Memory Byte → ℕ × Memory Byte
  | len + 3, buf, t, m =>
    let c := m.cell buf
    let m := m.read buf
    if c = '%'.toUInt8 then
      let c1 := m.cell (buf + 1)
      let m := m.read (buf + 1)
      let c2 := m.cell (buf + 2)
      let m := m.read (buf + 2)
      urldecodeAt len (buf + 3) (t + 1) (m.write t (unescape c1 c2))
    else urldecodeAt (len + 2) (buf + 1) (t + 1) (m.write t c)
  | len + 1, buf, t, m => urldecodeAt len (buf + 1) (t + 1) ((m.read buf).write t (m.cell buf))
  | 0, _, t, m => (t,m.write t 0)

/-- `set_path`. -/
def setPathAt (env : Environ) (len : ℕ) (m : Memory Byte) : Environ × Memory Byte :=
  let r := setPathLoopAt env len 0 0 m
  let u := urldecodeAt r.2.1 0 0 r.2.2
  (r.1.set (ascii "PATH_INFO") (u.2.view 0 u.1),u.2.readAll 0 u.1)

/-! ### They compute what the functions on lists do -/

section Spec
variable {m : Memory Byte} {env : Environ} {len i t n : ℕ}

theorem querySlenAt_spec (hn : i + len ≤ n) (hm : m.Within n) :
    (querySlenAt len i m).1 = querySlen (m.view i len) ∧ (querySlenAt len i m).1 ≤ len ∧
      (querySlenAt len i m).2.cell = m.cell ∧ (querySlenAt len i m).2.Within n := by
  induction len generalizing i m with
  | zero => exact ⟨rfl,le_rfl,rfl,hm⟩
  | succ len ih =>
    unfold querySlenAt
    rw [Memory.view_succ,querySlen]
    have hread : (m.read i).Within n := Memory.within_read.mpr ⟨by omega,hm⟩
    split
    · exact ⟨rfl,by omega,rfl,hread⟩
    · obtain ⟨hslen,hle,hcell,hwithin⟩ := ih (m := m.read i) (i := i + 1) (by omega) hread
      rw [Memory.view_read] at hslen
      exact ⟨by simp only [hslen],by simp only; omega,hcell,hwithin⟩

theorem setQueryAt_spec (hn : i + len ≤ n) (hm : m.Within n) :
    (setQueryAt env i len m).1 = setQuery env (m.view i len) ∧
      (setQueryAt env i len m).2.cell = m.cell ∧ (setQueryAt env i len m).2.Within n := by
  obtain ⟨hslen,hle,hcell,hwithin⟩ := querySlenAt_spec hn hm
  unfold setQueryAt setQuery
  simp only
  rw [← hslen]
  split
  · refine ⟨?_,hcell,hwithin.readAll (by omega)⟩
    rw [Memory.take_view (by omega),Memory.view_congr fun k _ => congrFun hcell k]
  · exact ⟨rfl,hcell,hwithin⟩

/-- What a loop leaves: `out` is written before `t`, and all it has touched is below `n`. -/
structure Leaves (m : Memory Byte) (t n : ℕ) (out : Bytes) : Prop where
  view : m.view 0 t = out
  within : m.Within n

theorem Leaves.length {out : Bytes} (h : Leaves m t n out) : t = out.length := by
  rw [← h.view,Memory.length_view]

/-- A byte is written behind the place that is read next. -/
theorem Leaves.write {out : Bytes} (h : Leaves m t n out) (c : Byte) (ht : t < n) :
    Leaves (m.write t c) (t + 1) n (out ++ [c]) := by
  refine ⟨?_,Memory.within_write.mpr ⟨ht,h.within⟩⟩
  have hend := m.view_write_end 0 t c
  rw [Nat.zero_add] at hend
  rw [hend,h.view]

theorem Leaves.read {out : Bytes} (h : Leaves m t n out) {i : ℕ} (hi : i < n) :
    Leaves (m.read i) t n out :=
  ⟨by rw [Memory.view_read,h.view],Memory.within_read.mpr ⟨hi,h.within⟩⟩

theorem cell_write_of_lt {i : ℕ} {c : Byte} (h : t < i) : (m.write t c).cell i = m.cell i :=
  Function.update_of_ne (by omega) _ _

theorem setPathLoop_char {g : Globals} {c : Byte} {rest out : Bytes}
    (h : c = '%'.toUInt8 → rest.length < 2) : setPathLoop g env (c :: rest) out =
      if c = '?'.toUInt8 then (setQuery env (rest ++ [g.beyond]),out)
      else if c = '#'.toUInt8 then (env,out)
      else setPathLoop g env rest (out ++ [c]) := by
  rcases rest with _ | ⟨c1,_ | ⟨c2,rest⟩⟩
  · rfl
  · rfl
  · have hc : c ≠ '%'.toUInt8 := fun hc => by
      have := h hc
      simp only [List.length_cons] at this
      omega
    rw [setPathLoop,if_neg hc]

theorem setPathLoopAt_char (h : m.cell i = '%'.toUInt8 → len < 2) :
    setPathLoopAt env (len + 1) i t m =
      if m.cell i = '?'.toUInt8 then
        ((setQueryAt env (i + 1) (len + 1) (m.read i)).1,t,
          (setQueryAt env (i + 1) (len + 1) (m.read i)).2)
      else if m.cell i = '#'.toUInt8 then (env,t,m.read i)
      else setPathLoopAt env len (i + 1) (t + 1) ((m.read i).write t (m.cell i)) := by
  rcases len with _ | _ | len
  · rfl
  · rfl
  · have hc : m.cell i ≠ '%'.toUInt8 := fun hc => by
      have := h hc
      omega
    rw [setPathLoopAt]
    simp only
    rw [if_neg hc]

theorem setPathLoopAt_escape (h : m.cell i = '%'.toUInt8) : setPathLoopAt env (len + 3) i t m =
    setPathLoopAt env len (i + 3) (t + 1) ((((m.read i).read (i + 1)).read (i + 2)).write t
      (unescape (m.cell (i + 1)) (m.cell (i + 2)))) := by
  rw [setPathLoopAt]
  simp only
  rw [if_pos h]
  rfl

theorem setQueryAt_beyond {g : Globals} (hg : g.beyond = m.cell (i + len)) (hn : i + len < n)
    (hm : m.Within n) : (setQueryAt env i (len + 1) m).1 = setQuery env (m.view i len ++ [g.beyond]) ∧
      (setQueryAt env i (len + 1) m).2.cell = m.cell ∧ (setQueryAt env i (len + 1) m).2.Within n := by
  have hle : i + (len + 1) ≤ n := hn
  have hspec := @setQueryAt_spec _ env _ _ _ hle hm
  rwa [Memory.view_concat,← hg] at hspec

theorem Leaves.of_cell {m' : Memory Byte} {out : Bytes} (h : Leaves m t n out) (hcell : m'.cell = m.cell)
    (hm : m'.Within n) : Leaves m' t n out :=
  ⟨by rw [Memory.view_congr fun k _ => congrFun hcell k,h.view],hm⟩

/-- The loop of `set_path` on the memory is the one on the bytes of the path. -/
theorem setPathLoopAt_spec {g : Globals} {out : Bytes} (hg : g.beyond = m.cell (i + len))
    (ht : t ≤ i) (hn : i + len < n) (h : Leaves m t n out) :
    (setPathLoopAt env len i t m).1 = (setPathLoop g env (m.view i len) out).1 ∧
      (setPathLoopAt env len i t m).2.1 ≤ i + len ∧
      Leaves (setPathLoopAt env len i t m).2.2 (setPathLoopAt env len i t m).2.1 n
        (setPathLoop g env (m.view i len) out).2 := by
  induction len using Nat.strong_induction_on generalizing i t m out with
  | _ len ih =>
    by_cases hescape : 2 < len ∧ m.cell i = '%'.toUInt8
    · obtain ⟨hlen,hc⟩ := hescape
      obtain ⟨len,rfl⟩ : ∃ k, len = k + 3 := ⟨len - 3,by omega⟩
      rw [setPathLoopAt_escape hc,Memory.view_succ,Memory.view_succ,Memory.view_succ,setPathLoop,if_pos hc]
      generalize hx : unescape (m.cell (i + 1)) (m.cell (i + 2)) = x
      have hread : Leaves (((m.read i).read (i + 1)).read (i + 2)) t n out :=
        ((h.read (by omega)).read (by omega)).read (by omega)
      have hplace : i + 3 + len = i + (len + 3) := by omega
      have hnext := ih len (by omega) (i := i + 3) (hg.trans (by rw [cell_write_of_lt (by omega),hplace]; rfl))
        (by omega) (by omega) (hread.write x (by omega))
      rw [Memory.view_write_of_lt (by omega),Memory.view_read,Memory.view_read,Memory.view_read] at hnext
      exact ⟨hnext.1,by omega,hnext.2.2⟩
    · cases len with
      | zero => exact ⟨rfl,ht,h⟩
      | succ len =>
        have hchar : m.cell i = '%'.toUInt8 → len < 2 := fun hc =>
          not_le.mp fun hle => hescape ⟨by omega,hc⟩
        rw [setPathLoopAt_char hchar,Memory.view_succ,setPathLoop_char (by simpa using hchar)]
        have hread : Leaves (m.read i) t n out := h.read (by omega)
        have hplace : i + 1 + len = i + (len + 1) := by omega
        split_ifs
        · obtain ⟨hq,hcell,hwithin⟩ := @setQueryAt_beyond _ env len (i + 1) n g
            (hg.trans (by rw [hplace]; rfl)) (by omega) hread.within
          rw [Memory.view_read] at hq
          exact ⟨hq,ht.trans (Nat.le_add_right _ _),hread.of_cell hcell hwithin⟩
        · exact ⟨rfl,ht.trans (Nat.le_add_right _ _),hread⟩
        · have hnext := ih len (by omega) (i := i + 1)
            (hg.trans (by rw [cell_write_of_lt (by omega),hplace]; rfl)) (by omega) (by omega)
            (hread.write (m.cell i) (by omega))
          rw [Memory.view_write_of_lt (by omega),Memory.view_read] at hnext
          exact ⟨hnext.1,by omega,hnext.2.2⟩

/-! The second pass. -/

theorem urldecode_char {c : Byte} {rest : Bytes} (h : c = '%'.toUInt8 → rest.length < 2) :
    urldecode (c :: rest) = c :: urldecode rest := by
  rcases rest with _ | ⟨c1,_ | ⟨c2,rest⟩⟩
  · rfl
  · rfl
  · have hc : c ≠ '%'.toUInt8 := fun hc => by
      have := h hc
      simp only [List.length_cons] at this
      omega
    rw [urldecode,if_neg hc]

theorem urldecodeAt_char (h : m.cell i = '%'.toUInt8 → len < 2) : urldecodeAt (len + 1) i t m =
    urldecodeAt len (i + 1) (t + 1) ((m.read i).write t (m.cell i)) := by
  rcases len with _ | _ | len
  · rfl
  · rfl
  · have hc : m.cell i ≠ '%'.toUInt8 := fun hc => by
      have := h hc
      omega
    rw [urldecodeAt]
    simp only
    rw [if_neg hc]

theorem urldecodeAt_escape (h : m.cell i = '%'.toUInt8) : urldecodeAt (len + 3) i t m =
    urldecodeAt len (i + 3) (t + 1) ((((m.read i).read (i + 1)).read (i + 2)).write t
      (unescape (m.cell (i + 1)) (m.cell (i + 2)))) := by
  rw [urldecodeAt]
  simp only
  rw [if_pos h]
  rfl

/-- `urldecode` on the memory is the one on its bytes; it writes a NUL behind what it leaves. -/
theorem urldecodeAt_spec {out : Bytes} (ht : t ≤ i) (hn : i + len < n) (h : Leaves m t n out) :
    (urldecodeAt len i t m).1 ≤ i + len ∧
      Leaves (urldecodeAt len i t m).2 (urldecodeAt len i t m).1 n
        (out ++ urldecode (m.view i len)) := by
  induction len using Nat.strong_induction_on generalizing i t m out with
  | _ len ih =>
    by_cases hescape : 2 < len ∧ m.cell i = '%'.toUInt8
    · obtain ⟨hlen,hc⟩ := hescape
      obtain ⟨len,rfl⟩ : ∃ k, len = k + 3 := ⟨len - 3,by omega⟩
      rw [urldecodeAt_escape hc,Memory.view_succ,Memory.view_succ,Memory.view_succ,urldecode,if_pos hc]
      generalize hx : unescape (m.cell (i + 1)) (m.cell (i + 2)) = x
      have hread : Leaves (((m.read i).read (i + 1)).read (i + 2)) t n out :=
        ((h.read (by omega)).read (by omega)).read (by omega)
      have hnext := ih len (by omega) (i := i + 3) (by omega) (by omega) (hread.write x (by omega))
      rw [Memory.view_write_of_lt (by omega),Memory.view_read,Memory.view_read,Memory.view_read,
        List.append_assoc] at hnext
      exact ⟨by omega,hnext.2⟩
    · cases len with
      | zero =>
        refine ⟨ht,?_,?_⟩
        · rw [urldecodeAt,Memory.view_write_of_le (by omega),h.view,Memory.view_zero,urldecode,
            List.append_nil]
        · exact Memory.within_write.mpr ⟨by omega,h.within⟩
      | succ len =>
        have hchar : m.cell i = '%'.toUInt8 → len < 2 := fun hc =>
          not_le.mp fun hle => hescape ⟨by omega,hc⟩
        rw [urldecodeAt_char hchar,Memory.view_succ,urldecode_char (by simpa using hchar)]
        have hread : Leaves (m.read i) t n out := h.read (by omega)
        have hnext := ih len (by omega) (i := i + 1) (by omega) (by omega)
          (hread.write (m.cell i) (by omega))
        rw [Memory.view_write_of_lt (by omega),Memory.view_read,List.append_assoc] at hnext
        exact ⟨by omega,hnext.2⟩

end Spec

/-- `set_path` on the memory of a path buffer: the environ of `setPath`, and no place from `n` on is
touched. -/
theorem setPathAt_spec {g : Globals} {env : Environ} {cell : ℕ → Byte} {len n : ℕ}
    (hg : g.beyond = cell len) (hn : len < n) :
    (setPathAt env len { cell := cell }).1 =
        setPath g env (({ cell := cell } : Memory Byte).view 0 len) ∧
      (setPathAt env len { cell := cell }).2.Within n := by
  have hstart : Leaves { cell := cell } 0 n [] := ⟨rfl,fun i hi => absurd hi List.not_mem_nil⟩
  obtain ⟨henv,ht,hleaves⟩ := @setPathLoopAt_spec { cell := cell } env len 0 0 n g []
    (by rw [hg,Nat.zero_add]) le_rfl (by omega) hstart
  unfold setPathAt setPath
  simp only
  generalize setPathLoopAt env len 0 0 { cell := cell } = r at henv ht hleaves
  obtain ⟨hu,hdecoded⟩ := @urldecodeAt_spec r.2.2 r.2.1 0 0 n _
    le_rfl (by omega) ⟨rfl,hleaves.within⟩
  rw [hleaves.view,Memory.view_zero,List.nil_append] at hdecoded
  exact ⟨by rw [henv,hdecoded.view],hdecoded.within.readAll (by omega)⟩

/-! ### The query -/

def isDelimiter (c : Byte) : Bool := c = '?'.toUInt8 || c = '#'.toUInt8

/-- A path from its first `?` or `#` on. -/
def literalTail (path : Bytes) : Bytes := path.dropWhile (!isDelimiter ·)

/-- A path from the first `?` or `#` on that is not one of the two bytes a `%` takes for its escape. -/
def scannedTail : Bytes → Bytes
  | c :: c1 :: c2 :: rest =>
    if c = '%'.toUInt8 then scannedTail rest
    else if isDelimiter c then c :: c1 :: c2 :: rest
    else scannedTail (c1 :: c2 :: rest)
  | c :: rest => if isDelimiter c then c :: rest else scannedTail rest
  | [] => []

/-- The text between a `?` and the next `#`, if it is not empty. -/
def queryOf (tail : Bytes) : Option Bytes :=
  let text := tail.tail.takeWhile (· ≠ '#'.toUInt8)
  if tail.head? = some '?'.toUInt8 ∧ text ≠ [] then some text else none

theorem querySlen_eq (s : Bytes) (c : Byte) :
    querySlen (s ++ [c]) = (s.takeWhile (· ≠ '#'.toUInt8)).length + 1 := by
  induction s with
  | nil => by_cases hc : c = '#'.toUInt8 <;> simp [querySlen,hc]
  | cons d s ih =>
    rw [List.cons_append,querySlen]
    by_cases hd : d = '#'.toUInt8
    · simp [hd]
    · rw [if_neg hd,ih,List.takeWhile_cons_of_pos (by simpa using hd)]
      rfl

def Environ.setQueryText (env : Environ) (query : Option Bytes) : Environ :=
  query.elim env fun text => env.set (ascii "QUERY_STRING") (cstr text)

theorem setQuery_eq (env : Environ) (s : Bytes) (c : Byte) :
    setQuery env (s ++ [c]) = env.setQueryText (queryOf ('?'.toUInt8 :: s)) := by
  have hprefix : s.takeWhile (· ≠ '#'.toUInt8) <+: s := List.takeWhile_prefix _
  have htake : (s ++ [c]).take (s.takeWhile (· ≠ '#'.toUInt8)).length =
      s.takeWhile (· ≠ '#'.toUInt8) := by
    rw [List.take_append_of_le_length hprefix.length_le]
    exact (List.prefix_iff_eq_take.mp hprefix).symm
  unfold setQuery queryOf
  simp only [querySlen_eq,Nat.add_sub_cancel,htake,List.tail_cons,List.head?_cons,true_and]
  by_cases hnil : s.takeWhile (· ≠ '#'.toUInt8) = []
  · rw [hnil,if_neg (by simp),if_neg (by simp)]
    rfl
  · have hpos := List.length_pos_iff.mpr hnil
    rw [if_pos (by omega),if_pos hnil]
    rfl

theorem scannedTail_char {c : Byte} {rest : Bytes} (h : c = '%'.toUInt8 → rest.length < 2) :
    scannedTail (c :: rest) = if isDelimiter c then c :: rest else scannedTail rest := by
  rcases rest with _ | ⟨c1,_ | ⟨c2,rest⟩⟩
  · rfl
  · rfl
  · have hc : c ≠ '%'.toUInt8 := fun hc => by
      have := h hc
      simp only [List.length_cons] at this
      omega
    rw [scannedTail,if_neg hc]

/-- `set_path` stores the query behind the first delimiter outside of its escapes. -/
theorem setPathLoop_query (g : Globals) (env : Environ) (path out : Bytes) :
    (setPathLoop g env path out).1 = env.setQueryText (queryOf (scannedTail path)) := by
  induction hn : path.length using Nat.strong_induction_on generalizing path out with
  | _ n ih =>
    cases path with
    | nil => rfl
    | cons c rest =>
      rw [List.length_cons] at hn
      by_cases hescape : c = '%'.toUInt8 ∧ 2 ≤ rest.length
      · obtain ⟨rfl,hlen⟩ := hescape
        rcases rest with _ | ⟨c1,_ | ⟨c2,rest⟩⟩
        · simp at hlen
        · simp at hlen
        · rw [setPathLoop,if_pos rfl,scannedTail,if_pos rfl]
          simp only [List.length_cons] at hn
          exact ih rest.length (by omega) _ _ rfl
      · have hchar : c = '%'.toUInt8 → rest.length < 2 := fun hc =>
          not_le.mp fun hle => hescape ⟨hc,hle⟩
        rw [setPathLoop_char hchar,scannedTail_char hchar]
        by_cases hq : c = '?'.toUInt8
        · subst hq
          exact setQuery_eq env rest g.beyond
        · rw [if_neg hq]
          by_cases hh : c = '#'.toUInt8
          · subst hh
            rfl
          · have hdelimiter : isDelimiter c = false := by simp [isDelimiter,hq,hh]
            rw [if_neg hh,hdelimiter,if_neg (by simp)]
            exact ih rest.length (by omega) _ _ rfl

theorem get?_setPath_query (g : Globals) {env : Environ} (henv : env.get? (ascii "QUERY_STRING") = none)
    (path : Bytes) :
    (setPath g env path).get? (ascii "QUERY_STRING") = (queryOf (scannedTail path)).map cstr := by
  rw [setPath,Environ.get?_set_of_ne _ _ (by decide),setPathLoop_query]
  cases queryOf (scannedTail path) with
  | none => exact henv
  | some text => exact Environ.get?_set_self ..

/-- `set_path` stays inside the allocation of the path buffer, and finds the query of the path. -/
structure QueryRead (env : Environ) (b : Buffer) (cell : ℕ → Byte) : Prop where
  within : (setPathAt env b.len { cell := cell }).2.Within b.bufSize
  query : (setPathAt env b.len { cell := cell }).1.get? (ascii "QUERY_STRING") =
    queryOf (literalTail b.buf)

def Queryless (tail : Bytes) : Prop :=
  tail.head? ≠ some '?'.toUInt8 ∨ ∀ c ∈ tail.tail.head?, c = '#'.toUInt8

/-- The first `?` or `#` is taken for a part of an escape, and it makes no difference: there is no query
behind it, and none behind the delimiter that is found; or the query behind it ends with a `#` that is
taken as well, and stands once more behind the delimiter that is found, up to a `#`, a NUL or the end. -/
inductive Coincides (path : Bytes) : Prop
  | none : Queryless (literalTail path) → Queryless (scannedTail path) → Coincides path
  | again {text rest after} : literalTail path = '?'.toUInt8 :: (text ++ '#'.toUInt8 :: rest) →
      text ≠ [] → '#'.toUInt8 ∉ text → 0 ∉ text →
      scannedTail path = '?'.toUInt8 :: (text ++ after) →
      (∀ c ∈ after.head?, c = '#'.toUInt8 ∨ c = 0) → Coincides path

/-- The first `?` or `#` is not taken for a part of an escape, and the query has no NUL; or it is, and
makes no difference. -/
def QueryFound (path : Bytes) : Prop :=
  if scannedTail path = literalTail path then ∀ text ∈ queryOf (literalTail path), 0 ∉ text
  else Coincides path

theorem cstr_eq_self_iff {s : Bytes} : cstr s = s ↔ 0 ∉ s := by
  constructor
  · intro h h0
    have := List.mem_takeWhile_imp (h.symm ▸ h0 : (0 : Byte) ∈ cstr s)
    simp at this
  · exact cstr_eq_self

theorem queryOf_eq_none {tail : Bytes} : queryOf tail = none ↔ Queryless tail := by
  unfold queryOf Queryless
  cases tail.tail with
  | nil => simp
  | cons c rest =>
    by_cases hc : c = '#'.toUInt8
    · simp [hc]
    · simp [hc]

theorem takeWhile_hash {text after : Bytes} (ht : '#'.toUInt8 ∉ text) :
    (text ++ after).takeWhile (· ≠ '#'.toUInt8) = text ++ after.takeWhile (· ≠ '#'.toUInt8) := by
  refine List.takeWhile_append_of_pos fun c hc => ?_
  simpa using fun h : c = '#'.toUInt8 => ht (h ▸ hc)

theorem queryOf_eq_some {tail text : Bytes} : queryOf tail = some text ↔ text ≠ [] ∧
    '#'.toUInt8 ∉ text ∧ ∃ after, tail = '?'.toUInt8 :: (text ++ after) ∧
      ∀ c ∈ after.head?, c = '#'.toUInt8 := by
  constructor
  · intro h
    unfold queryOf at h
    simp only [Option.ite_none_right_eq_some,Option.some.injEq] at h
    obtain ⟨⟨hhead,hne⟩,rfl⟩ := h
    refine ⟨hne,fun hmem => by simpa using List.mem_takeWhile_imp hmem,
      tail.tail.dropWhile (· ≠ '#'.toUInt8),?_,fun c hc => ?_⟩
    · rw [List.takeWhile_append_dropWhile]
      exact List.eq_cons_of_mem_head? hhead
    · have hnot := List.head?_dropWhile_not (· ≠ '#'.toUInt8) tail.tail
      rw [hc] at hnot
      simpa using hnot
  · rintro ⟨hne,ht,after,rfl,hafter⟩
    have hend : after.takeWhile (· ≠ '#'.toUInt8) = [] := by
      cases after with
      | nil => rfl
      | cons c rest => simp [hafter c rfl]
    unfold queryOf
    simp only [List.tail_cons,List.head?_cons,takeWhile_hash ht,hend,List.append_nil,true_and]
    exact if_pos hne

theorem literalTail_suffix (c : Byte) (rest : Bytes) : literalTail rest <:+ literalTail (c :: rest) := by
  unfold literalTail
  by_cases hc : isDelimiter c
  · rw [List.dropWhile_cons_of_neg (by simp [hc])]
    exact (List.dropWhile_suffix _).trans (List.suffix_cons c rest)
  · rw [List.dropWhile_cons_of_pos (by simpa using hc)]

theorem scannedTail_suffix (path : Bytes) : scannedTail path <:+ literalTail path := by
  induction path using scannedTail.induct with
  | case1 c1 c2 rest ih =>
    rw [scannedTail,if_pos rfl]
    exact ih.trans ((literalTail_suffix c2 rest).trans
      ((literalTail_suffix c1 _).trans (literalTail_suffix _ _)))
  | case2 c c1 c2 rest hc hd =>
    rw [scannedTail,if_neg hc,if_pos hd,literalTail,List.dropWhile_cons_of_neg (by simp [hd])]
  | case3 c c1 c2 rest hc hd ih =>
    rw [scannedTail,if_neg hc,if_neg hd]
    exact ih.trans (literalTail_suffix c _)
  | case4 c rest hshort hd =>
    rw [scannedTail,if_pos hd,literalTail,List.dropWhile_cons_of_neg (by simp [hd])]
    exact hshort
  | case5 c rest hshort hd ih =>
    rw [scannedTail,if_neg hd]
    · exact ih.trans (literalTail_suffix c _)
    · exact hshort
  | case6 => exact List.suffix_rfl

/-- The same query behind both delimiters. -/
theorem coincides_of_eq {path : Bytes} (hne : scannedTail path ≠ literalTail path)
    (h : (queryOf (scannedTail path)).map cstr = queryOf (literalTail path)) : Coincides path := by
  cases hq : queryOf (literalTail path) with
  | none =>
    rw [hq,Option.map_eq_none_iff] at h
    exact .none (queryOf_eq_none.mp hq) (queryOf_eq_none.mp h)
  | some text =>
    rw [hq] at h
    obtain ⟨text2,hs,rfl⟩ := Option.map_eq_some_iff.mp h
    obtain ⟨hnil,hhash,after,hl,hafter⟩ := queryOf_eq_some.mp hq
    obtain ⟨-,-,after2,hs2,hafter2⟩ := queryOf_eq_some.mp hs
    have hsplit : text2 = cstr text2 ++ text2.dropWhile (· ≠ 0) :=
      List.takeWhile_append_dropWhile.symm
    have hscan : scannedTail path =
        '?'.toUInt8 :: (cstr text2 ++ (text2.dropWhile (· ≠ 0) ++ after2)) := by
      rw [hs2,← List.append_assoc,← hsplit]
    have hnul : 0 ∉ cstr text2 := fun h0 => by simpa using List.mem_takeWhile_imp h0
    cases after with
    | nil =>
      have hlen := (scannedTail_suffix path).length_le
      have hlt : (scannedTail path).length ≠ (literalTail path).length := fun he =>
        hne ((scannedTail_suffix path).eq_of_length he)
      rw [hl] at hlen hlt
      rw [hscan] at hlen hlt
      simp only [List.length_cons,List.length_append,List.length_nil] at hlen hlt
      omega
    | cons c rest =>
      obtain rfl := hafter c rfl
      refine .again hl hnil hhash hnul hscan fun c hc => ?_
      cases hd : text2.dropWhile (· ≠ 0) with
      | nil =>
        rw [hd,List.nil_append] at hc
        exact .inl (hafter2 c hc)
      | cons d ds =>
        rw [hd] at hc
        obtain rfl : d = c := by simpa using hc
        have hnot := List.head?_dropWhile_not (· ≠ 0) text2
        rw [hd] at hnot
        exact .inr (by simpa using hnot)

theorem Coincides.eq {path : Bytes} (h : Coincides path) :
    (queryOf (scannedTail path)).map cstr = queryOf (literalTail path) := by
  cases h with
  | none hl hs =>
    rw [queryOf_eq_none.mpr hl,queryOf_eq_none.mpr hs]
    rfl
  | @again text rest after hl hnil hhash hnul hs hafter =>
    have hquery : queryOf (literalTail path) = some text :=
      queryOf_eq_some.mpr ⟨hnil,hhash,_,hl,by simp⟩
    have hscan : queryOf (scannedTail path) =
        some (text ++ after.takeWhile (· ≠ '#'.toUInt8)) := by
      unfold queryOf
      simp only [hs,List.tail_cons,List.head?_cons,takeWhile_hash hhash,true_and]
      exact if_pos (by simp [hnil])
    have hcut : cstr (text ++ after.takeWhile (· ≠ '#'.toUInt8)) = text := by
      have hall : ∀ c ∈ text, decide (c ≠ 0) = true := fun c hc => by
        simpa using fun h : c = 0 => hnul (h ▸ hc)
      rw [cstr,List.takeWhile_append_of_pos hall]
      cases after with
      | nil => simp
      | cons c rest =>
        have hne : (0 : Byte) ≠ '#'.toUInt8 := by decide
        rcases hafter c rfl with rfl | rfl <;> simp [hne]
    rw [hquery,hscan,Option.map_some,hcut]

/-- What the two delimiters lead to. -/
theorem coincides_iff {path : Bytes} (hne : scannedTail path ≠ literalTail path) :
    (queryOf (scannedTail path)).map cstr = queryOf (literalTail path) ↔ Coincides path :=
  ⟨coincides_of_eq hne,Coincides.eq⟩

/-- The places are always inside the allocation. The query is the one of the path exactly when the
first `?` or `#` is found and the query has no NUL, or what is found instead leads to the same. -/
theorem query_read_iff {env : Environ} (henv : env.get? (ascii "QUERY_STRING") = none) {b : Buffer}
    (hb : b.len < b.bufSize) {cell : ℕ → Byte} (hcell : ∀ i (h : i < b.len), cell i = b.buf[i]) :
    QueryRead env b cell ↔ QueryFound b.buf := by
  have hview : ({ cell := cell } : Memory Byte).view 0 b.len = b.buf :=
    Memory.view_eq fun k hk => (congrArg cell (Nat.zero_add k)).trans (hcell k hk)
  obtain ⟨hset,hwithin⟩ := @setPathAt_spec { beyond := cell b.len } env cell _ _ rfl hb
  rw [hview] at hset
  have hfound : (setPathAt env b.len { cell := cell }).1.get? (ascii "QUERY_STRING") =
      (queryOf (scannedTail b.buf)).map cstr := by
    rw [hset,get?_setPath_query _ henv]
  have hread : QueryRead env b cell ↔
      (queryOf (scannedTail b.buf)).map cstr = queryOf (literalTail b.buf) :=
    ⟨fun h => hfound ▸ h.query,fun h => ⟨hwithin,hfound.trans h⟩⟩
  rw [hread,QueryFound]
  split
  next hsame =>
    rw [hsame]
    cases queryOf (literalTail b.buf) with
    | none => simp
    | some text => simp [cstr_eq_self_iff]
  next hne => exact coincides_iff hne

/-- The path buffer of a short path. -/
def pathBuffer (path : Bytes) : Buffer := (write2buf (newBuffer 1024 LIMIT_PATH) path).2

theorem query_read_fragment : QueryRead [] (pathBuffer (ascii "/a?x=1#f"))
    fun i => (ascii "/a?x=1#f##").getD i 0 :=
  (query_read_iff rfl (by decide +kernel) (by decide +kernel)).mpr (by
    rw [QueryFound,if_pos (by decide +kernel)]
    decide +kernel)

/-- The escape of `%?a` takes the `?` of a query, and that of `%#a` the `#` before which no query
stands. -/
theorem query_not_read :
    ¬QueryRead [] (pathBuffer (ascii "/%?a=1")) (fun i => (ascii "/%?a=1").getD i 0) ∧
    ¬QueryRead [] (pathBuffer (ascii "/%#a?b")) fun i => (ascii "/%#a?b").getD i 0 := by
  constructor
  · intro h
    have hquery := h.query
    revert hquery
    decide +kernel
  · intro h
    have hquery := h.query
    revert hquery
    decide +kernel

theorem write2buf_room {b : Buffer} {c : Bytes} (h : (write2buf b c).1 = .WRITE_OK) :
    (write2buf b c).2.len < (write2buf b c).2.bufSize := by
  unfold write2buf at h ⊢
  simp only at h ⊢
  split at h
  · simp at h
  next hlt =>
    rw [if_neg hlt]
    simpa [Buffer.len] using hlt

/-- The buffer that the calls of `url_cb` leave has the room. -/
theorem urlCalls_room {req req' : Request} {bufs : List Bytes}
    (hreq : ∀ b ∈ req.path, b.len < b.bufSize) (h : urlCalls bufs req = some (true,req')) :
    ∀ b ∈ req'.path, b.len < b.bufSize := by
  induction bufs generalizing req with
  | nil =>
    obtain rfl := (Prod.mk.inj (Option.some.inj h)).2
    exact hreq
  | cons buf bufs ih =>
    rw [urlCalls] at h
    split at h
    next r hcall =>
      obtain ⟨hok,rfl⟩ := urlCb_true.mp hcall
      refine ih ?_ h
      rintro b hb
      obtain rfl := Option.some.inj hb
      exact write2buf_room hok
    next hcall => exact absurd h (hcall req')

end Meinheld
