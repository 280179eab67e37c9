import Mathlib.Tactic

/-! UTF-8 over lists of bytes: encoding and strict decoding, as inverse partial maps. -/
namespace Utf8

/-- The bytes of a text. -/
def encode (s : List Char) : List UInt8 := s.flatMap String.utf8EncodeChar

/-- The text of some bytes, `none` where they are not the bytes of one. -/
def decode (d : List UInt8) : Option (List Char) := d.toByteArray.utf8Decode?.map Array.toList

theorem encode_eq (s : List Char) : (encode s).toByteArray = s.utf8Encode := rfl

@[simp] theorem encode_nil : encode [] = [] := rfl

@[simp] theorem encode_append (s t : List Char) : encode (s ++ t) = encode s ++ encode t := by
  simp [encode]

@[simp] theorem decode_encode (s : List Char) : decode (encode s) = some s := by
  simp [decode,encode_eq]

theorem decode_eq_some {d : List UInt8} {s : List Char} : decode d = some s ↔ d = encode s := by
  refine ⟨fun h => ?_,fun h => h ▸ decode_encode s⟩
  obtain ⟨a,ha,rfl⟩ := Option.map_eq_some_iff.mp h
  have hget : (d.toByteArray.utf8Decode?.get (by simp [ha])).toList.utf8Encode = d.toByteArray :=
    ByteArray.utf8Encode_get_utf8Decode?
  simp only [ha,Option.get_some] at hget
  have hlist := congrArg (fun b => b.data.toList) hget
  simpa [encode_eq,← encode_eq] using hlist.symm

end Utf8
