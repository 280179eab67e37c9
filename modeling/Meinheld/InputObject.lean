import Meinheld.Bytes
import Meinheld.ByteStream

/-! The request body as WSGI code reads it: `input.c`, and the `io.BytesIO` it stands for. -/
namespace Meinheld
open ByteStream

/-- An `InputObject`, with the bytes of its buffer. -/
structure InputObject where
  buffer : Bytes
  pos : ℕ := 0
  deriving DecidableEq, Repr

namespace InputObject

def newline : Byte := 10

/-- The bytes before `pos` are read: these are left. -/
def rest (s : InputObject) : Bytes := s.buffer.drop s.pos

def read (s : InputObject) (n : ℤ) : Reply Byte × InputObject :=
  let l : ℤ := s.buffer.length - s.pos
  let n := if n < 0 ∨ l < n then (if l < 0 then 0 else l) else n
  (.bytes (s.rest.take n.toNat),{ s with pos := s.pos + n.toNat })

/-- How far the loop of `inner_readline` goes. -/
def scan : Bytes → ℕ
  | [] => 0
  | b :: bs => if b = newline then 0 else scan bs + 1

/-- What `inner_readline` adds to `pos`. -/
def lineLength (rest : Bytes) : ℕ :=
  if scan rest < rest.length then scan rest + 1 else scan rest

/-- `(int)n`. -/
def asInt (n : ℤ) : ℤ := Int.bmod n (2 ^ 32)

theorem asInt_of_le {n : ℤ} (h0 : 0 ≤ n) (h : n ≤ 2 ^ 31 - 1) : asInt n = n :=
  Int.bmod_eq_of_le (by omega) (by omega)

/-- `inner_readline`: the length as an `int`. -/
def innerReadline (s : InputObject) : ℤ × InputObject :=
  (asInt (lineLength s.rest),{ s with pos := s.pos + lineLength s.rest })

def readline (s : InputObject) (size : ℤ) : Reply Byte × InputObject :=
  let (len,t) := s.innerReadline
  if len < 0 then (.failed,t)
  else if 0 ≤ size ∧ size < len then
    (.bytes (s.rest.take size.toNat),{ t with pos := t.pos - (len - size).toNat })
  else (.bytes (s.rest.take len.toNat),t)

theorem scan_le (bs : Bytes) : scan bs ≤ bs.length := by
  induction bs with
  | nil => exact le_rfl
  | cons b bs ih =>
    unfold scan
    split
    · exact Nat.zero_le _
    · simpa using ih

theorem lineLength_le (bs : Bytes) : lineLength bs ≤ bs.length := by
  have hle := scan_le bs
  unfold lineLength
  split <;> omega

/-- The loop of `readlines`, with the `length` so far. `fuel` bounds the lines it can give. -/
def readlinesLoop : ℕ → ℤ → ℤ → InputObject → Option (List Bytes) × InputObject
  | 0,_,_,s => (none,s)
  | fuel + 1,sizehint,length,s =>
    let (len,t) := s.innerReadline
    if len < 0 then (none,t)
    else if len = 0 then (some [],t)
    else
      let length := asInt (length + len)
      if 0 < sizehint ∧ sizehint ≤ length then (some [s.rest.take len.toNat],t)
      else
        let r := readlinesLoop fuel sizehint length t
        (r.1.map (s.rest.take len.toNat :: ·),r.2)

def readlines (s : InputObject) (sizehint : ℤ) : Reply Byte × InputObject :=
  let r := readlinesLoop (s.buffer.length + 1) sizehint 0 s
  (r.1.elim .failed .lines,r.2)

def iternext (s : InputObject) : Reply Byte × InputObject :=
  let r := s.readline (-1)
  if r.1 = .bytes [] then (.stop,r.2) else r

/-- A call from Python. `read` takes a `Py_ssize_t`, `readline` and `readlines` take an `int`. -/
def call (s : InputObject) : Call → Reply Byte × InputObject
  | .read n => if -2 ^ 63 ≤ n ∧ n < 2 ^ 63 then s.read n else (.overflow,s)
  | .readline size => if -2 ^ 31 ≤ size ∧ size < 2 ^ 31 then s.readline size else (.overflow,s)
  | .readlines hint => if -2 ^ 31 ≤ hint ∧ hint < 2 ^ 31 then s.readlines hint else (.overflow,s)
  | .next => s.iternext

/-- The `io.BytesIO` with the same bytes at the same position. -/
def toStream (s : InputObject) : Stream Byte := ⟨s.buffer,s.pos⟩

/-- An argument that an `int` holds as soon as a `Py_ssize_t` does. -/
def Narrow : Call → Prop
  | .readline n | .readlines n => -2 ^ 63 ≤ n ∧ n < 2 ^ 63 → -2 ^ 31 ≤ n ∧ n < 2 ^ 31
  | _ => True

/-! ### Each call -/

theorem lineLength_eq (bs : Bytes) : lineLength bs = (line newline bs).length := by
  induction bs with
  | nil => rfl
  | cons b bs ih =>
    by_cases hb : b = newline
    · simp [lineLength,scan,line,hb]
    · rw [line,if_neg hb,List.length_cons,← ih]
      simp only [lineLength,scan,if_neg hb,List.length_cons]
      split <;> split <;> omega

theorem take_line (bs : Bytes) : bs.take (line newline bs).length = line newline bs :=
  (List.prefix_iff_eq_take.mp (line_isPrefix bs)).symm

section Steps
variable {s : InputObject} {c : Call}

theorem length_rest (s : InputObject) : s.rest.length = s.buffer.length - s.pos := by
  rw [rest,List.length_drop]

theorem innerReadline_eq (hs : s.buffer.length ≤ 2 ^ 31 - 1) : s.innerReadline =
    (((line newline s.rest).length : ℤ),{ s with pos := s.pos + (line newline s.rest).length }) := by
  have hle := lineLength_le s.rest
  have hrest := length_rest s
  unfold innerReadline
  rw [asInt_of_le (by omega) (by omega),lineLength_eq]

theorem toStream_rest (s : InputObject) : s.toStream.rest = s.rest := rfl

/-- Both give the reply, and both move past what it holds. -/
def Replies (s : InputObject) (r : Reply Byte × InputObject) (reply : Reply Byte) : Prop :=
  r = (reply,{ s with pos := s.pos + reply.data.length })

theorem read_replies (hs : s.pos ≤ s.buffer.length) (n : ℤ) :
    s.Replies (s.read n) (s.toStream.reply newline (.read n)) := by
  have hrest := s.length_rest
  have hall : s.rest.take (s.buffer.length - s.pos) = s.rest := List.take_of_length_le (by omega)
  have hlen : ((s.buffer.length : ℤ) - s.pos).toNat = s.buffer.length - s.pos := by omega
  unfold Replies read Stream.reply
  simp only [toStream_rest,Reply.data]
  by_cases hn : n < 0
  · rw [if_pos (.inl hn),if_pos hn,if_neg (by omega),hlen,hall,hrest]
  · by_cases hl : (s.buffer.length : ℤ) - s.pos < n
    · have htake : s.rest.take n.toNat = s.rest := List.take_of_length_le (by omega)
      rw [if_pos (.inr hl),if_neg hn,if_neg (by omega),hlen,hall,htake,hrest]
    · rw [if_neg (by omega),if_neg hn,List.length_take,Nat.min_eq_left (by omega)]

theorem readline_replies (hs : s.buffer.length ≤ 2 ^ 31 - 1) (size : ℤ) :
    s.Replies (s.readline size) (s.toStream.reply newline (.readline size)) := by
  unfold Replies readline Stream.reply
  simp only [innerReadline_eq hs,toStream_rest,Reply.data]
  rw [if_neg (by omega)]
  by_cases hsize : 0 ≤ size ∧ size < (line newline s.rest).length
  · have htake : s.rest.take size.toNat = (line newline s.rest).take size.toNat := by
      rw [← take_line,List.take_take,Nat.min_eq_left (by omega)]
    rw [if_pos hsize,if_neg (by omega),htake,List.length_take,Nat.min_eq_left (by omega)]
    refine Prod.ext rfl ?_
    simp only [mk.injEq,true_and]
    omega
  · rw [if_neg hsize,Int.toNat_natCast,take_line]
    by_cases hneg : size < 0
    · rw [if_pos hneg]
    · rw [if_neg hneg,List.take_of_length_le (by omega)]

/-- The lines that `readlines` is to give, after `length` bytes of them. -/
def remaining (hint length : ℤ) (rest : Bytes) : List Bytes :=
  if hint ≤ 0 then lines newline rest else upTo (hint - length) (lines newline rest)

theorem remaining_nil (hint length : ℤ) : remaining hint length [] = [] := by
  unfold remaining
  split <;> rfl

theorem remaining_cons {hint length : ℤ} {rest : Bytes} (h : rest ≠ []) :
    remaining hint length rest = line newline rest ::
      if 0 < hint ∧ hint ≤ length + (line newline rest).length then []
      else remaining hint (length + (line newline rest).length)
        (rest.drop (line newline rest).length) := by
  unfold remaining
  rw [lines_eq h]
  by_cases hhint : hint ≤ 0
  · rw [if_pos hhint,if_neg (by omega),if_pos hhint]
  · rw [if_neg hhint,if_neg hhint,upTo,sub_sub]
    congr 1
    by_cases hle : hint ≤ length + (line newline rest).length
    · rw [if_pos (by omega),if_pos (by omega)]
    · rw [if_neg (by omega),if_neg (by omega)]

/-- The loop gives the remaining lines and stops behind them. -/
theorem readlinesLoop_eq {hint length : ℤ} {fuel : ℕ} (hs : s.buffer.length ≤ 2 ^ 31 - 1)
    (hpos : s.pos ≤ s.buffer.length) (h0 : 0 ≤ length) (hle : length ≤ s.pos)
    (hfuel : s.rest.length < fuel) :
    readlinesLoop fuel hint length s = (some (remaining hint length s.rest),
      { s with pos := s.pos + (remaining hint length s.rest).flatten.length }) := by
  induction fuel generalizing s length with
  | zero => exact absurd hfuel (Nat.not_lt_zero _)
  | succ fuel ih =>
    have hline : (line newline s.rest).length ≤ s.rest.length := (line_isPrefix s.rest).length_le
    have hrest := s.length_rest
    have hasInt : asInt (length + (line newline s.rest).length) =
        length + (line newline s.rest).length := asInt_of_le (by omega) (by omega)
    simp only [readlinesLoop,innerReadline_eq hs,hasInt,Int.toNat_natCast,take_line]
    rw [if_neg (by omega)]
    by_cases hnil : s.rest = []
    · rw [hnil,remaining_nil,if_pos (by rfl)]
      rfl
    · have hk : 0 < (line newline s.rest).length :=
        List.length_pos_iff.mpr fun h => hnil (line_eq_nil.mp h)
      rw [if_neg (by omega),remaining_cons hnil]
      by_cases hstop : 0 < hint ∧ hint ≤ length + (line newline s.rest).length
      · rw [if_pos hstop,if_pos hstop]
        simp
      · have hdrop : s.rest.drop (line newline s.rest).length =
            rest { s with pos := s.pos + (line newline s.rest).length } := List.drop_drop
        have hrec : ∀ t : InputObject, t = { s with pos := s.pos + (line newline s.rest).length } →
            readlinesLoop fuel hint (length + (line newline s.rest).length) t =
              (some (remaining hint (length + (line newline s.rest).length) t.rest),
                { t with pos := t.pos +
                  (remaining hint (length + (line newline s.rest).length) t.rest).flatten.length }) := by
          rintro t rfl
          exact ih hs (by simp only; omega) (by omega) (by simp only; omega)
            (by rw [length_rest]; simp only; omega)
        rw [if_neg hstop,if_neg hstop,hdrop,hrec _ rfl]
        simp only [Option.map_some,List.flatten_cons,List.length_append,Nat.add_assoc]

theorem readlines_replies (hs : s.buffer.length ≤ 2 ^ 31 - 1) (hpos : s.pos ≤ s.buffer.length)
    (hint : ℤ) : s.Replies (s.readlines hint) (s.toStream.reply newline (.readlines hint)) := by
  have hlines : remaining hint 0 s.rest =
      if hint ≤ 0 then lines newline s.rest else upTo hint (lines newline s.rest) := by
    rw [remaining,sub_zero]
  unfold Replies readlines Stream.reply
  rw [readlinesLoop_eq hs hpos le_rfl (Int.natCast_nonneg _) (by rw [length_rest]; omega),hlines]
  rfl

theorem iternext_replies (hs : s.buffer.length ≤ 2 ^ 31 - 1) :
    s.Replies s.iternext (s.toStream.reply newline .next) := by
  have hbytes : s.toStream.reply newline (.readline (-1)) = .bytes (line newline s.rest) := by
    simp [Stream.reply,toStream_rest]
  have hline := readline_replies hs (-1)
  unfold Replies at hline ⊢
  rw [hbytes] at hline
  simp only [iternext,hline,Reply.bytes.injEq,line_eq_nil]
  by_cases hnil : s.rest = []
  · have hstop : s.toStream.reply newline .next = .stop := if_pos hnil
    rw [if_pos hnil,hstop,hnil]
    rfl
  · have hnext : s.toStream.reply newline .next = .bytes (line newline s.rest) := if_neg hnil
    rw [if_neg hnil,hnext]

/-- A call with an argument in range does what the call of `io.BytesIO` does. -/
theorem call_narrow (hs : s.buffer.length ≤ 2 ^ 31 - 1) (hpos : s.pos ≤ s.buffer.length)
    (hc : Narrow c) : (s.call c).1 = (s.toStream.call newline c).1 ∧
      (s.call c).2.toStream = (s.toStream.call newline c).2 := by
  have hreply : ∀ {r : Reply Byte × InputObject} (c : Call), s.Replies r (s.toStream.reply newline c) →
      -2 ^ 63 ≤ c.arg ∧ c.arg < 2 ^ 63 →
      r.1 = (s.toStream.call newline c).1 ∧ r.2.toStream = (s.toStream.call newline c).2 := by
    intro r c h hc
    rw [Stream.call,if_pos hc,h]
    exact ⟨rfl,rfl⟩
  have hover : ∀ c : Call, ¬(-2 ^ 63 ≤ c.arg ∧ c.arg < 2 ^ 63) →
      .overflow = (s.toStream.call newline c).1 ∧ s.toStream = (s.toStream.call newline c).2 := by
    intro c hc
    rw [Stream.call,if_neg hc]
    exact ⟨rfl,rfl⟩
  cases c with
  | read n =>
    by_cases hn : -2 ^ 63 ≤ n ∧ n < 2 ^ 63
    · rw [call,if_pos hn]
      exact hreply _ (read_replies hpos n) hn
    · rw [call,if_neg hn]
      exact hover _ hn
  | readline n =>
    by_cases hn : -2 ^ 63 ≤ n ∧ n < 2 ^ 63
    · rw [call,if_pos (hc hn)]
      exact hreply _ (readline_replies hs n) hn
    · rw [call,if_neg (by omega)]
      exact hover _ hn
  | readlines n =>
    by_cases hn : -2 ^ 63 ≤ n ∧ n < 2 ^ 63
    · rw [call,if_pos (hc hn)]
      exact hreply _ (readlines_replies hs hpos n) hn
    · rw [call,if_neg (by omega)]
      exact hover _ hn
  | next =>
    rw [call]
    exact hreply _ (iternext_replies hs) ⟨by simp [Call.arg],by simp [Call.arg]⟩

/-- An argument that only a `Py_ssize_t` holds makes the call fail where that of `io.BytesIO` does
not. -/
theorem call_wide (hc : ¬Narrow c) :
    s.call c = (.overflow,s) ∧ (s.toStream.call newline c).1 ≠ .overflow := by
  cases c with
  | read n => exact absurd trivial hc
  | next => exact absurd trivial hc
  | readline n =>
    simp only [Narrow,Classical.not_imp] at hc
    rw [call,if_neg hc.2,Stream.call,if_pos (by exact hc.1)]
    exact ⟨rfl,by simp [Stream.reply]⟩
  | readlines n =>
    simp only [Narrow,Classical.not_imp] at hc
    rw [call,if_neg hc.2,Stream.call,if_pos (by exact hc.1)]
    exact ⟨rfl,by simp [Stream.reply]⟩

theorem call_spec (hs : s.buffer.length ≤ 2 ^ 31 - 1) (hpos : s.pos ≤ s.buffer.length) (c : Call) :
    (s.call c).1.data <+: s.toStream.rest ∧
      (s.call c).2.toStream = { s.toStream with pos := s.pos + (s.call c).1.data.length } := by
  by_cases hc : Narrow c
  · obtain ⟨hreply,hio⟩ := call_narrow hs hpos hc
    obtain ⟨hdata,hmove⟩ := @Stream.call_spec _ _ newline s.toStream c
    rw [hreply,hio]
    exact ⟨hdata,hmove⟩
  · rw [(call_wide hc).1]
    exact ⟨List.nil_prefix,rfl⟩

/-- The replies to several calls are those of `io.BytesIO` exactly when all arguments are in
range. -/
theorem replies_iff (hs : s.buffer.length ≤ 2 ^ 31 - 1) (hpos : s.pos ≤ s.buffer.length)
    (calls : List Call) :
    (((replies call s calls).1 = (replies (Stream.call newline) s.toStream calls).1) ↔
      ∀ c ∈ calls, Narrow c) ∧
    ((∀ c ∈ calls, Narrow c) →
      (replies call s calls).2.toStream = (replies (Stream.call newline) s.toStream calls).2) := by
  induction calls generalizing s with
  | nil => exact ⟨iff_of_true rfl (by simp),fun _ => rfl⟩
  | cons c calls ih =>
    simp only [replies,List.cons.injEq,List.forall_mem_cons]
    by_cases hc : Narrow c
    · obtain ⟨hreply,hio⟩ := call_narrow hs hpos hc
      obtain ⟨hdata,hmove⟩ := call_spec hs hpos c
      have hlen := hdata.length_le
      rw [toStream_rest,length_rest] at hlen
      have hbytes : (s.call c).2.buffer = s.buffer := congrArg Stream.bytes hmove
      have hpos' : (s.call c).2.pos = s.pos + (s.call c).1.data.length := congrArg Stream.pos hmove
      rw [← hio]
      obtain ⟨hiff,hend⟩ := ih (s := (s.call c).2) (hbytes ▸ hs) (by rw [hbytes,hpos']; omega)
      exact ⟨by rw [and_iff_right hreply,and_iff_right hc,hiff],fun h => hend h.2⟩
    · obtain ⟨hover,hne⟩ := call_wide (s := s) hc
      refine ⟨iff_of_false (fun h => hne ?_) fun h => hc h.1,fun h => absurd h.1 hc⟩
      rw [← h.1,hover]

end Steps

/-! ### Runs -/

/-- The body is read as `io.BytesIO` reads it: the same replies, the same position at the end, and
what has been read is what lies before that position. -/
structure ReadsAsStream (body : Bytes) (calls : List Call) : Prop where
  same : (replies call ⟨body,0⟩ calls).1 = (replies (Stream.call newline) ⟨body,0⟩ calls).1
  pos : (replies call ⟨body,0⟩ calls).2.pos = (replies (Stream.call newline) ⟨body,0⟩ calls).2.pos
  data : (replies call ⟨body,0⟩ calls).1.flatMap Reply.data =
    body.take (replies call ⟨body,0⟩ calls).2.pos
  pos_le : (replies call ⟨body,0⟩ calls).2.pos ≤ body.length

/-- A body is read as `io.BytesIO` reads it exactly when no `readline` or `readlines` is given an
argument that a `Py_ssize_t` holds and an `int` does not. -/
theorem readsAsStream_iff {body : Bytes} (hbody : body.length ≤ 2 ^ 31 - 1) (calls : List Call) :
    ReadsAsStream body calls ↔ ∀ c ∈ calls, Narrow c := by
  have hstart : (⟨body,0⟩ : InputObject).pos ≤ body.length := Nat.zero_le _
  obtain ⟨hiff,hend⟩ := replies_iff (s := ⟨body,0⟩) hbody hstart calls
  obtain ⟨hle,hdata⟩ := @replies_data _ _ call toStream body
    (fun s c hb hp => by
      subst hb
      exact call_spec hbody hp c) ⟨body,0⟩ rfl hstart calls
  constructor
  · exact fun h => hiff.mp h.same
  · exact fun h => ⟨hiff.mpr h,congrArg Stream.pos (hend h),hdata,hle⟩

theorem readsAsStream_lines : ReadsAsStream (ascii "a\nbc\n\nd") [.readline 1,.next,.readlines 2,.read (-1)] :=
  (readsAsStream_iff (by decide) _).mpr (by simp [Narrow])

/-- A limit of `2^31` for a line. -/
theorem not_readsAsStream : ¬ReadsAsStream (ascii "a") [.readline (2 ^ 31)] := by
  intro h
  have hsame := h.same
  revert hsame
  decide

end InputObject

end Meinheld
