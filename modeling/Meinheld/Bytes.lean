import Mathlib.Tactic
import Mathlib.Data.List.TakeWhile

/-! Bytes, and the C character tests the parsers share. -/
namespace Meinheld

abbrev Byte := UInt8
abbrev Bytes := List Byte

/-- The bytes of an ASCII literal of the source. -/
def ascii (s : String) : Bytes := s.toList.map Char.toUInt8

abbrev CR : Byte := 13
abbrev LF : Byte := 10
abbrev SP : Byte := 32
abbrev TAB : Byte := 9
abbrev CRLF : Bytes := [CR,LF]

/-- `LOWER(c)`. -/
def lower (c : Byte) : Byte := c ||| 0x20
/-- `IS_ALPHA(c)`. -/
def isAlpha (c : Byte) : Bool := 'a'.toUInt8 ≤ lower c && lower c ≤ 'z'.toUInt8
/-- `IS_NUM(c)`; a `char` above 127 is negative in C and no digit either. -/
def isNum (c : Byte) : Bool := '0'.toUInt8 ≤ c && c ≤ '9'.toUInt8

/-- `toupper` in the C locale. -/
def toupper (c : Byte) : Byte := if 'a'.toUInt8 ≤ c && c ≤ 'z'.toUInt8 then c - 32 else c
/-- `tolower` in the C locale. -/
def tolower (c : Byte) : Byte := if 'A'.toUInt8 ≤ c && c ≤ 'Z'.toUInt8 then c + 32 else c

/-- `%d` and `%zu`. -/
def decimal (n : ℕ) : Bytes := (Nat.toDigits 10 n).map Char.toUInt8
/-- `%zx`. -/
def hex (n : ℕ) : Bytes := (Nat.toDigits 16 n).map Char.toUInt8

/-- The value of a `char`, which is signed. -/
def signed (c : Byte) : ℤ := if c < 128 then c.toNat else c.toNat - 256

/-- What a C string function sees of a buffer: the bytes before the first NUL. -/
def cstr (s : Bytes) : Bytes := s.takeWhile (· ≠ 0)

/-- `strcasecmp(s, t) == 0`. -/
def strcasecmp (s t : Bytes) : Bool := (cstr s).map tolower == (cstr t).map tolower

theorem isNum_of_mem_decimal {n : ℕ} {c : Byte} (h : c ∈ decimal n) : isNum c = true := by
  obtain ⟨d,hd,rfl⟩ := List.mem_map.mp h
  have hdig := Nat.isDigit_of_mem_toDigits (by decide) (by decide) hd
  simp only [Char.isDigit,ge_iff_le,Bool.and_eq_true,decide_eq_true_eq] at hdig
  have hlo : 48 ≤ d.toNat := hdig.1
  have hhi : d.toNat ≤ 57 := hdig.2
  have hv : d.toUInt8.toNat = d.toNat := by
    simp only [Char.toUInt8,UInt32.toNat_toUInt8]
    exact Nat.mod_eq_of_lt (by change d.toNat < 256; omega)
  simp only [isNum,Bool.and_eq_true,decide_eq_true_eq,UInt8.le_iff_toNat_le,hv]
  exact ⟨hlo,hhi⟩

theorem zero_not_mem_decimal (n : ℕ) : 0 ∉ decimal n := fun h =>
  absurd (isNum_of_mem_decimal h) (by decide)

theorem cstr_eq_self {s : Bytes} (h : 0 ∉ s) : cstr s = s :=
  List.takeWhile_eq_self_iff.mpr fun c hc => by
    simpa using fun h0 : c = 0 => h (h0 ▸ hc)

instance decidableForallByte (P : Byte → Prop) [DecidablePred P] : Decidable (∀ c, P c) :=
  decidable_of_iff (∀ i : Fin 256, P (UInt8.ofFin i))
    ⟨fun h c => by simpa using h c.toFin,fun h i => h _⟩

end Meinheld
