import Meinheld.Bytes
import Meinheld.Framing
import Meinheld.Utf8

/-! The frames of `websocket.py`: what `_pack_message` writes, and what `_parse_messages` reads of
the next frame. -/
namespace Meinheld

/-- A message the application gets, or gives: a `str` that UTF-8 can encode, or `bytes`. -/
inductive Message
  | text (s : List Char)
  | binary (d : Bytes)
  deriving DecidableEq, Repr

/-- `struct.pack` of an unsigned number in `k` bytes, big-endian. -/
def pack : ℕ → ℕ → Bytes
  | 0, _ => []
  | k + 1, n => UInt8.ofNat (n / 256 ^ k) :: pack k n

/-- `struct.unpack` of the same. -/
def unpack (s : Bytes) : ℕ := s.foldl (fun n b => n * 256 + b.toNat) 0

/-- `zip(data, cycle(maskdata))` under `^`. -/
def maskWith (key data : Bytes) : Bytes := data.mapIdx fun i d => d ^^^ key.getD (i % key.length) 0

def Message.opcode : Message → Fin 16
  | .text _ => 1
  | .binary _ => 2

def Message.payload : Message → Bytes
  | .text s => Utf8.encode s
  | .binary d => d

/-- `_pack_message` of version 13; `none` is its ValueError. -/
def packMessage (message : Message) : Option Bytes :=
  let opcode : Byte := UInt8.ofNat message.opcode
  let payload := message.payload
  let fin : Byte := 0x80
  let mask : Byte := 0
  let length := payload.length
  if length < 126 then some ([fin ||| opcode,mask ||| UInt8.ofNat length] ++ payload)
  else if length ≤ 0xffff then some ([fin ||| opcode,mask ||| 126] ++ pack 2 length ++ payload)
  else if length ≤ 0xffffffffffffffff then
    some ([fin ||| opcode,mask ||| 127] ++ pack 8 length ++ payload)
  else none

/-- What `_parse_messages` knows of a frame it has read. -/
structure Frame where
  fin : Bool
  opcode : ℕ
  data : Bytes
  deriving DecidableEq, Repr

/-- The first part of the loop of `_parse_messages`: the frame with what follows it, or `none` for
its `return msgs`. -/
def parseFrame : Framing.Decoder Byte Frame :=
  (Framing.take 2).bind fun head =>
    let b1 := head.getD 0 0
    let b2 := head.getD 1 0
    let fin := b1 &&& 0x80 ≠ 0
    let opcode := (b1 &&& 0x0f).toNat
    let mask := b2 &&& 0x80 ≠ 0
    let length := (b2 &&& 0x7f).toNat
    (Framing.take (if length = 126 then 2 else if length = 127 then 8 else 0)).bind fun extended =>
      let length := if length = 126 ∨ length = 127 then unpack extended else length
      (Framing.take (if mask then 4 else 0)).bind fun maskdata =>
        (Framing.take length).map fun data =>
          ⟨fin,opcode,if mask then maskWith maskdata data else data⟩

theorem parseFrame_stable : Framing.Stable parseFrame :=
  (Framing.take_stable 2).bind fun _ => (Framing.take_stable _).bind fun _ =>
    (Framing.take_stable _).bind fun _ => (Framing.take_stable _).map _

theorem parseFrame_takes : Framing.Takes 2 parseFrame :=
  (Framing.take_takes 2).bind fun _ => ((Framing.take_takes _).bind fun _ =>
    ((Framing.take_takes _).bind fun _ => ((Framing.take_takes _).map _).zero).zero).zero

/-- A frame as RFC 6455 puts it on the wire, with a masking key or without. -/
structure WireFrame where
  fin : Bool
  opcode : Fin 16
  key : Option Bytes := none
  payload : Bytes
  key_length : ∀ k ∈ key, k.length = 4 := by simp
  payload_length : payload.length < 2 ^ 64

/-- The first byte of a frame. -/
def WireFrame.first (f : WireFrame) : Byte := (if f.fin then 0x80 else 0) ||| UInt8.ofNat f.opcode

/-- The second byte, with seven bits of a length. -/
def WireFrame.second (f : WireFrame) (n : ℕ) : Byte :=
  (if f.key.isSome then 0x80 else 0) ||| UInt8.ofNat n

/-- The payload length, in the shortest of its three forms. -/
def WireFrame.lengths (f : WireFrame) : ℕ × Bytes :=
  if f.payload.length < 126 then (f.payload.length,[])
  else if f.payload.length ≤ 0xffff then (126,pack 2 f.payload.length)
  else (127,pack 8 f.payload.length)

/-- The payload as it is sent. -/
def WireFrame.body (f : WireFrame) : Bytes :=
  match f.key with
  | some key => maskWith key f.payload
  | none => f.payload

def WireFrame.encode (f : WireFrame) : Bytes :=
  [f.first,f.second f.lengths.1] ++ f.lengths.2 ++ f.key.getD [] ++ f.body

def WireFrame.frame (f : WireFrame) : Frame := ⟨f.fin,f.opcode,f.payload⟩

@[simp] theorem pack_length (k n : ℕ) : (pack k n).length = k := by
  induction k with
  | zero => rfl
  | succ k ih => simp [pack,ih]

theorem foldl_pack (k n acc : ℕ) :
    (pack k n).foldl (fun m b => m * 256 + b.toNat) acc = acc * 256 ^ k + n % 256 ^ k := by
  induction k generalizing acc with
  | zero => simp [pack,Nat.mod_one]
  | succ k ih =>
    have hbyte : (UInt8.ofNat (n / 256 ^ k)).toNat = n / 256 ^ k % 256 := UInt8.toNat_ofNat'
    rw [pack,List.foldl_cons,ih,hbyte,Nat.mod_pow_succ]
    ring

theorem unpack_pack {k n : ℕ} (h : n < 256 ^ k) : unpack (pack k n) = n := by
  rw [unpack,foldl_pack,Nat.zero_mul,Nat.zero_add,Nat.mod_eq_of_lt h]

@[simp] theorem maskWith_length (key data : Bytes) : (maskWith key data).length = data.length := by
  simp [maskWith]

theorem maskWith_maskWith (key data : Bytes) : maskWith key (maskWith key data) = data := by
  apply List.ext_getElem
  · simp
  · intro i _ _
    simp only [maskWith,List.getElem_mapIdx]
    rw [UInt8.xor_assoc,UInt8.xor_self,UInt8.xor_zero]

theorem first_bits : ∀ (fin : Bool) (opcode : Fin 16),
    (decide (((if fin then 0x80 else 0) ||| UInt8.ofNat opcode : Byte) &&& 0x80 ≠ 0) = fin) ∧
      (((if fin then 0x80 else 0) ||| UInt8.ofNat opcode : Byte) &&& 0x0f).toNat = opcode := by decide

theorem second_bits : ∀ (mask : Bool) (n : Fin 128),
    (decide (((if mask then 0x80 else 0) ||| UInt8.ofNat n : Byte) &&& 0x80 ≠ 0) = mask) ∧
      (((if mask then 0x80 else 0) ||| UInt8.ofNat n : Byte) &&& 0x7f).toNat = n := by decide

theorem WireFrame.lengths_fst (f : WireFrame) : f.lengths.1 < 128 := by
  unfold WireFrame.lengths
  split
  · omega
  · split <;> simp

theorem WireFrame.lengths_spec (f : WireFrame) :
    f.lengths.2.length = (if f.lengths.1 = 126 then 2 else if f.lengths.1 = 127 then 8 else 0) ∧
      (if f.lengths.1 = 126 ∨ f.lengths.1 = 127 then unpack f.lengths.2 else f.lengths.1) =
        f.payload.length := by
  have hlt := f.payload_length
  unfold WireFrame.lengths
  split
  next h =>
    have h1 : f.payload.length ≠ 126 := by omega
    have h2 : f.payload.length ≠ 127 := by omega
    simp [h1,h2]
  next h =>
    split
    next h16 => simp [unpack_pack (show f.payload.length < 256 ^ 2 by omega)]
    next h16 => simp [unpack_pack (show f.payload.length < 256 ^ 8 by omega)]

/-- A frame on the wire is read as what it is. -/
theorem parseFrame_encode : Framing.Encodes parseFrame WireFrame.frame WireFrame.encode := by
  intro f e
  have hfin : decide (f.first &&& 0x80 ≠ 0) = f.fin := (first_bits f.fin f.opcode).1
  have hop : (f.first &&& 0x0f).toNat = f.opcode := (first_bits f.fin f.opcode).2
  have hbits := second_bits f.key.isSome ⟨f.lengths.1,f.lengths_fst⟩
  have hmask : (f.second f.lengths.1 &&& 0x80 ≠ 0) ↔ f.key.isSome = true := by
    rw [← hbits.1,decide_eq_true_eq]
    rfl
  have hlow : (f.second f.lengths.1 &&& 0x7f).toNat = f.lengths.1 := hbits.2
  obtain ⟨hext,hlen⟩ := f.lengths_spec
  have hkey : (f.key.getD []).length = if f.key.isSome = true then 4 else 0 := by
    cases hk : f.key with
    | none => rfl
    | some k => simpa using f.key_length k hk
  have hbody : f.body.length = f.payload.length := by
    cases hk : f.key <;> simp [WireFrame.body,hk]
  have hdata : (if f.key.isSome = true then maskWith (f.key.getD []) f.body else f.body) =
      f.payload := by
    cases hk : f.key <;> simp [WireFrame.body,hk,maskWith_maskWith]
  have henc : f.encode ++ e = [f.first,f.second f.lengths.1] ++ (f.lengths.2 ++ (f.key.getD [] ++
      (f.body ++ e))) := by simp [WireFrame.encode]
  have hhead : [f.first,f.second f.lengths.1].length = 2 := rfl
  rw [henc,parseFrame,Framing.Decoder.bind_of (Framing.take_append hhead _)]
  simp only [List.getD_cons_zero,List.getD_cons_succ,hlow]
  rw [Framing.Decoder.bind_of (Framing.take_append hext _)]
  simp only [hlen,hmask]
  rw [Framing.Decoder.bind_of (Framing.take_append hkey _),
    Framing.Decoder.map_of (Framing.take_append hbody _)]
  simp only [hfin,hop,hdata,WireFrame.frame]

theorem parseFrame_nil : parseFrame [] = none := rfl

/-- The frame of a message that is not fragmented. -/
def Message.wire (m : Message) (h : m.payload.length < 2 ^ 64) : WireFrame where
  fin := true
  opcode := m.opcode
  payload := m.payload
  payload_length := h

theorem packMessage_eq (m : Message) (h : m.payload.length < 2 ^ 64) :
    packMessage m = some (m.wire h).encode := by
  simp only [packMessage,WireFrame.encode,WireFrame.first,WireFrame.second,WireFrame.body,
    WireFrame.lengths,Message.wire]
  by_cases h1 : m.payload.length < 126
  · simp [h1]
  · by_cases h2 : m.payload.length ≤ 0xffff
    · simp [h1,h2]
    · rw [if_neg h1,if_neg h2,if_pos (by omega)]
      simp [h1,h2]

end Meinheld
