import Meinheld.Bytes

/-! The growable buffer of `buffer.c`. Allocation does not fail in the model. -/
namespace Meinheld

def LIMIT_MAX : ℕ := 1024 * 1024 * 1024

inductive BufferResult
  | WRITE_OK | MEMORY_ERROR | LIMIT_OVER
  deriving DecidableEq, Repr

/-- `buffer_t`; `len` is the length of the bytes written. -/
structure Buffer where
  buf : Bytes := []
  bufSize : ℕ
  limit : ℕ
  deriving DecidableEq, Repr

def Buffer.len (b : Buffer) : ℕ := b.buf.length

/-- `(size_t)(int)n`. -/
def intToSize (n : ℕ) : ℕ :=
  let m := n % 2 ^ 32
  if m < 2 ^ 31 then m else 2 ^ 64 - 2 ^ 32 + m

def newBuffer (bufSize limit : ℕ) : Buffer where
  bufSize := bufSize
  limit := if limit = 0 then LIMIT_MAX else limit

/-- The size `write2buf` gives a buffer that has to hold `newl` bytes. -/
def Buffer.grow (b : Buffer) (newl : ℕ) : ℕ :=
  if newl ≥ b.bufSize then
    let s := b.bufSize * 2
    let s := if s ≤ newl then intToSize (newl + 1) else s
    if s > b.limit then b.limit + 1 else s
  else b.bufSize

def write2buf (b : Buffer) (c : Bytes) : BufferResult × Buffer :=
  let newl := b.len + c.length
  let size := b.grow newl
  if newl ≥ size then
    (.LIMIT_OVER,{ b with bufSize := size, buf := b.buf ++ c.take (size - b.len - 1) })
  else (.WRITE_OK,{ b with bufSize := size, buf := b.buf ++ c })

end Meinheld
