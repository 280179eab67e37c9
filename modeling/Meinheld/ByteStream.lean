import Mathlib.Tactic

/-! In-memory streams of symbols, read in pieces and line by line as `io.BytesIO` reads. -/
namespace ByteStream

variable {α : Type*}

/-! ### Lines -/

section Lines
variable [DecidableEq α] (nl : α)

/-- The symbols up to the first `nl`, that included. -/
def line : List α → List α
  | [] => []
  | b :: bs => if b = nl then [b] else b :: line bs

/-- All lines, the last of which may have no end. -/
def lines : List α → List (List α)
  | [] => []
  | b :: bs =>
    if b = nl then [b] :: lines bs
    else match lines bs with
      | [] => [[b]]
      | l :: ls => (b :: l) :: ls

variable {nl}

theorem line_isPrefix (bs : List α) : line nl bs <+: bs := by
  induction bs with
  | nil => exact List.prefix_rfl
  | cons b bs ih =>
    unfold line
    split
    · exact ⟨bs,rfl⟩
    · exact (List.prefix_cons_inj b).mpr ih

theorem line_eq_nil {bs : List α} : line nl bs = [] ↔ bs = [] := by
  cases bs with
  | nil => simp [line]
  | cons b bs =>
    unfold line
    split <;> simp

/-- The lines are the first one and those of what follows it. -/
theorem lines_eq {bs : List α} (h : bs ≠ []) :
    lines nl bs = line nl bs :: lines nl (bs.drop (line nl bs).length) := by
  induction bs with
  | nil => exact absurd rfl h
  | cons b bs ih =>
    by_cases hb : b = nl
    · simp [lines,line,hb]
    · cases bs with
      | nil => simp [lines,line,hb]
      | cons c cs =>
        have hline : line nl (b :: c :: cs) = b :: line nl (c :: cs) := if_neg hb
        rw [hline,lines,ih (List.cons_ne_nil c cs),List.length_cons,List.drop_succ_cons]
        simp only [if_neg hb]

theorem flatten_lines (bs : List α) : (lines nl bs).flatten = bs := by
  induction bs with
  | nil => rfl
  | cons b bs ih =>
    unfold lines
    split
    · simp [ih]
    · cases hl : lines nl bs with
      | nil =>
        rw [hl] at ih
        simp [← ih]
      | cons l ls =>
        rw [hl] at ih
        simpa using ih

end Lines

/-- The first lines whose length reaches `hint`. -/
def upTo (hint : ℤ) : List (List α) → List (List α)
  | [] => []
  | l :: ls => l :: if hint ≤ l.length then [] else upTo (hint - l.length) ls

theorem upTo_isPrefix (hint : ℤ) (ls : List (List α)) : upTo hint ls <+: ls := by
  induction ls generalizing hint with
  | nil => exact List.prefix_rfl
  | cons l ls ih =>
    unfold upTo
    rw [List.prefix_cons_inj]
    split
    · exact List.nil_prefix
    · exact ih _

theorem flatten_isPrefix {ls ms : List (List α)} (h : ls <+: ms) : ls.flatten <+: ms.flatten := by
  obtain ⟨ns,rfl⟩ := h
  rw [List.flatten_append]
  exact List.prefix_append _ _

/-! ### Calls -/

/-- A call on a stream. -/
inductive Call
  | read (n : ℤ)
  | readline (size : ℤ)
  | readlines (hint : ℤ)
  | next
  deriving DecidableEq, Repr

/-- What a call gives: symbols, lines, the end of an iteration, `OverflowError`, or a failure. -/
inductive Reply (α : Type*)
  | bytes (d : List α)
  | lines (ls : List (List α))
  | stop
  | overflow
  | failed
  deriving DecidableEq, Repr

/-- The symbols in a reply. -/
def Reply.data : Reply α → List α
  | .bytes d => d
  | .lines ls => ls.flatten
  | .stop | .overflow | .failed => []

/-- The integer a call is given. -/
def Call.arg : Call → ℤ
  | .read n | .readline n | .readlines n => n
  | .next => -1

/-- The replies to calls, one after another, and the state after them. -/
def replies {σ : Type*} (call : σ → Call → Reply α × σ) : σ → List Call → List (Reply α) × σ
  | s, [] => ([],s)
  | s, c :: cs => ((call s c).1 :: (replies call (call s c).2 cs).1,(replies call (call s c).2 cs).2)

/-- A stream, and how far it has been read. -/
structure Stream (α : Type*) where
  bytes : List α
  pos : ℕ := 0
  deriving DecidableEq, Repr

section Calls
variable [DecidableEq α] (nl : α)

/-- What is left to read. -/
def Stream.rest (s : Stream α) : List α := s.bytes.drop s.pos

/-- What a call reads. -/
def Stream.reply (s : Stream α) : Call → Reply α
  | .read n => .bytes (if n < 0 then s.rest else s.rest.take n.toNat)
  | .readline size =>
    .bytes (if size < 0 then line nl s.rest else (line nl s.rest).take size.toNat)
  | .readlines hint =>
    .lines (if hint ≤ 0 then lines nl s.rest else upTo hint (lines nl s.rest))
  | .next => if s.rest = [] then .stop else .bytes (line nl s.rest)

/-- A call reads on from where the stream is, unless its argument is none of a `Py_ssize_t`. -/
def Stream.call (s : Stream α) (c : Call) : Reply α × Stream α :=
  if -2 ^ 63 ≤ c.arg ∧ c.arg < 2 ^ 63 then
    (s.reply nl c,{ s with pos := s.pos + (s.reply nl c).data.length })
  else (.overflow,s)

variable {nl} {s : Stream α} {c : Call}

theorem Stream.reply_prefix (s : Stream α) (c : Call) : (s.reply nl c).data <+: s.rest := by
  cases c with
  | read n =>
    simp only [reply,Reply.data]
    split
    · exact List.prefix_rfl
    · exact List.take_prefix _ _
  | readline size =>
    simp only [reply,Reply.data]
    split
    · exact line_isPrefix _
    · exact (List.take_prefix _ _).trans (line_isPrefix _)
  | readlines hint =>
    simp only [reply,Reply.data]
    split
    · rw [flatten_lines]
    · exact (flatten_isPrefix (upTo_isPrefix _ _)).trans (by rw [flatten_lines])
  | next =>
    simp only [reply]
    split
    · exact List.nil_prefix
    · exact line_isPrefix _

/-- A call reads some of what is left and goes on past it. -/
theorem Stream.call_spec (s : Stream α) (c : Call) : (s.call nl c).1.data <+: s.rest ∧
    (s.call nl c).2 = { s with pos := s.pos + (s.call nl c).1.data.length } := by
  unfold call
  split
  · exact ⟨s.reply_prefix c,rfl⟩
  · exact ⟨List.nil_prefix,rfl⟩

end Calls

/-- Calls each of which reads some of what is left have together read what lies before the
position. -/
theorem replies_data {σ : Type*} {call : σ → Call → Reply α × σ} (view : σ → Stream α)
    {bytes : List α}
    (h : ∀ s c, (view s).bytes = bytes → (view s).pos ≤ bytes.length →
      (call s c).1.data <+: (view s).rest ∧
        view (call s c).2 = { view s with pos := (view s).pos + (call s c).1.data.length })
    {s : σ} (hb : (view s).bytes = bytes) (hs : (view s).pos ≤ bytes.length) (cs : List Call) :
    (view (replies call s cs).2).pos ≤ bytes.length ∧
    bytes.take (view s).pos ++ (replies call s cs).1.flatMap Reply.data =
      bytes.take (view (replies call s cs).2).pos := by
  induction cs generalizing s with
  | nil => exact ⟨hs,List.append_nil _⟩
  | cons c cs ih =>
    obtain ⟨hdata,hview⟩ := h s c hb hs
    have hlen := hdata.length_le
    rw [Stream.rest,hb,List.length_drop] at hlen
    have hread : bytes.take (view s).pos ++ (call s c).1.data = bytes.take (view (call s c).2).pos := by
      rw [hview,List.take_add,List.prefix_iff_eq_take.mp hdata]
      simp [Stream.rest,hb]
    obtain ⟨hpos,htake⟩ := ih (s := (call s c).2) (by rw [hview]; exact hb) (by
      rw [hview]
      simp only
      omega)
    refine ⟨hpos,?_⟩
    rw [replies,List.flatMap_cons,← List.append_assoc,hread]
    exact htake

end ByteStream
