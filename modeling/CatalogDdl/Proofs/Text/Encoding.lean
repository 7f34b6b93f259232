import CatalogDdl.Text.Encoding
import Mathlib.Data.List.GetD
import Mathlib.Data.List.Infix

/-!
# Texts in four encodings

A text is stored as UTF-8, with or without a byte order mark, or as UTF-16 behind the mark for its
byte order. It is read back from each of them, since no text in UTF-8 begins with a byte of the
marks of UTF-16. Bytes that are neither UTF-8 nor behind a mark are read byte by byte, so only a
file with a mark can be malformed.
-/
namespace CatalogDdl.Text

/-- The UTF-16 units of a character: its number, or a surrogate pair if the number takes more than
sixteen bits. -/
def units (c : Char) : List Nat :=
  if c.toNat < 0x10000 then [c.toNat]
  else [0xd800 + (c.toNat - 0x10000) / 0x400, 0xdc00 + (c.toNat - 0x10000) % 0x400]

def ByteOrder.bytes : ByteOrder → Nat → List UInt8
  | .low, unit => [UInt8.ofNat (unit % 256), UInt8.ofNat (unit / 256)]
  | .high, unit => [UInt8.ofNat (unit / 256), UInt8.ofNat (unit % 256)]

/-- The number of a character is no surrogate. -/
theorem toNat_valid (c : Char) : c.toNat < 0xd800 ∨ 0xdfff < c.toNat ∧ c.toNat < 0x110000 := c.valid

theorem toNat_ofNat {n : Nat} (h : n < 0xd800) : (Char.ofNat n).toNat = n := by
  rw [Char.ofNat, dif_pos (.inl h)]
  rfl

theorem units_lt {c : Char} {unit : Nat} (h : unit ∈ units c) : unit < 0x10000 := by
  have hc := toNat_valid c
  rw [units] at h
  split at h
  · rw [List.mem_singleton] at h
    omega
  · simp only [List.mem_cons, List.not_mem_nil, or_false] at h
    omega

/-- Units are read from their bytes in either order. -/
theorem units16_bytes (order : ByteOrder) {us : List Nat} (h : ∀ unit ∈ us, unit < 0x10000) :
    units16 order (us.flatMap order.bytes) = some us := by
  induction us with
  | nil => rfl
  | cons unit us ih =>
    rw [List.forall_mem_cons] at h
    cases order with
    | low =>
      have hu : (UInt8.ofNat (unit % 256)).toNat + 256 * (UInt8.ofNat (unit / 256)).toNat =
          unit := by
        simp only [UInt8.toNat_ofNat']
        omega
      simp only [List.flatMap_cons, ByteOrder.bytes, List.cons_append, List.nil_append, units16, hu]
      rw [ih h.2, Option.map_some]
    | high =>
      have hu : 256 * (UInt8.ofNat (unit / 256)).toNat + (UInt8.ofNat (unit % 256)).toNat =
          unit := by
        simp only [UInt8.toNat_ofNat']
        omega
      simp only [List.flatMap_cons, ByteOrder.bytes, List.cons_append, List.nil_append, units16, hu]
      rw [ih h.2, Option.map_some]

/-- The units in front are read as their character, and then those of the rest. -/
theorem ofUnits16_units (c : Char) (rest : List Nat) :
    ofUnits16 (units c ++ rest) = (ofUnits16 rest).map (c :: ·) := by
  have hc := toNat_valid c
  rw [units]
  split
  · have hl : isLeading c.toNat = false := by simp [isLeading]; omega
    have ht : isTrailing c.toNat = false := by simp [isTrailing]; omega
    cases rest with
    | nil => simp [ofUnits16, hl, ht]
    | cons next rest => simp [ofUnits16, hl, ht]
  · have hl : isLeading (0xd800 + (c.toNat - 0x10000) / 0x400) = true := by simp [isLeading]; omega
    have ht : isTrailing (0xdc00 + (c.toNat - 0x10000) % 0x400) =
        true := by simp [isTrailing]; omega
    have hn : 0x10000 + 0x400 * (0xd800 + (c.toNat - 0x10000) / 0x400 - 0xd800) +
        (0xdc00 + (c.toNat - 0x10000) % 0x400 - 0xdc00) = c.toNat := by omega
    simp only [List.cons_append, List.nil_append, ofUnits16, hl, ht, Bool.and_self, if_true, hn,
      Char.ofNat_toNat]

theorem ofUnits16_flatMap (s : List Char) : ofUnits16 (s.flatMap units) = some s := by
  induction s with
  | nil => rfl
  | cons c s ih => rw [List.flatMap_cons, ofUnits16_units, ih, Option.map_some]

/-- In either byte order a text is read back from the bytes of its units. -/
theorem bind_ofUnits16 (order : ByteOrder) (s : List Char) :
    (units16 order ((s.flatMap units).flatMap order.bytes)).bind ofUnits16 = some s := by
  rw [units16_bytes, Option.bind_some, ofUnits16_flatMap]
  intro unit hu
  obtain ⟨c, -, hc⟩ := List.mem_flatMap.mp hu
  exact units_lt hc

theorem fromUTF8?_toUTF8 (s : String) : String.fromUTF8? s.toUTF8 = some s := by
  rw [String.fromUTF8?, String.toUTF8, dif_pos s.isValidUTF8]
  rfl

/-- A character begins with a byte below those of the marks of UTF-16. -/
theorem exists_utf8EncodeChar (c : Char) : ∃ byte rest, String.utf8EncodeChar c = byte :: rest ∧
    byte < 0xf8 := by
  have hb (n : Nat) (hn : n < 0xf8) : UInt8.ofNat n < 0xf8 := by
    rw [UInt8.lt_iff_toNat_lt, UInt8.toNat_ofNat']
    exact Nat.lt_of_le_of_lt (Nat.mod_le _ _) hn
  simp only [String.utf8EncodeChar]
  split
  · exact ⟨_, _, rfl, hb _ (by omega)⟩
  · split
    · exact ⟨_, _, rfl, hb _ (by omega)⟩
    · split
      · exact ⟨_, _, rfl, hb _ (by omega)⟩
      · exact ⟨_, _, rfl, hb _ (by omega)⟩

/-- No text in UTF-8 begins with a byte of 0xf8 or more. -/
theorem fromUTF8?_eq_none {bytes : ByteArray} {byte : UInt8}
    (h : bytes.data.toList.head? = some byte) (hb : 0xf8 ≤ byte) :
    String.fromUTF8? bytes = none := by
  rw [String.fromUTF8?, dif_neg]
  rintro ⟨s, rfl⟩
  cases s with
  | nil => cases h
  | cons c s =>
    obtain ⟨first, rest, hc, hf⟩ := exists_utf8EncodeChar c
    simp only [List.utf8Encode, List.data_toByteArray, List.flatMap_cons, hc, List.cons_append,
      List.head?_cons, Option.some.injEq] at h
    subst h
    exact absurd hf (UInt8.not_lt.mpr hb)

def Unmarked (s : String) : Prop := s.toList.head? ≠ some orderMark

instance (s : String) : Decidable (Unmarked s) := inferInstanceAs (Decidable (_ ≠ _))

/-- How a text is stored: as UTF-8 without or with a byte order mark, or as UTF-16 behind one. -/
inductive Encoding where
  | plain
  | marked
  | sixteen (order : ByteOrder)
  deriving DecidableEq, Repr

namespace Encoding

def mark : Encoding → List UInt8
  | plain => []
  | marked => [0xef, 0xbb, 0xbf]
  | sixteen .low => [0xff, 0xfe]
  | sixteen .high => [0xfe, 0xff]

def content (s : String) : Encoding → List UInt8
  | plain | marked => s.toUTF8.data.toList
  | sixteen order => (s.toList.flatMap units).flatMap order.bytes

def encode (e : Encoding) (s : String) : ByteArray := ⟨(e.mark ++ e.content s).toArray⟩

theorem encode_plain (s : String) : plain.encode s = s.toUTF8 := rfl

theorem encode_marked (s : String) :
    marked.encode s = (String.singleton orderMark ++ s).toUTF8 := by
  have hm : (String.singleton orderMark).toByteArray = ⟨marked.mark.toArray⟩ := by rfl
  rw [String.toUTF8_eq_toByteArray, String.toByteArray_append, hm]
  simp [encode, content, ByteArray.ext_iff]

end Encoding

theorem dropMark_of_unmarked {s : String} (h : Unmarked s) : dropMark s.toList = s.toList := by
  rw [Unmarked] at h
  cases hs : s.toList with
  | nil => rfl
  | cons c rest =>
    rw [hs, List.head?_cons, ne_eq, Option.some.injEq] at h
    rw [dropMark, if_neg h]

theorem decode_of_fromUTF8? {bytes : ByteArray} {s : String} (h : String.fromUTF8? bytes = some s) :
    decode bytes = some (String.ofList (dropMark s.toList)) := by
  rw [decode, h]

theorem decode_of_malformed {bytes : ByteArray} (h : String.fromUTF8? bytes = none) :
    decode bytes = (decodeFallback bytes.data.toList).map fun s => String.ofList (dropMark s) := by
  rw [decode, h]

/-- A text is read back from each of its encodings. -/
theorem decode_encode {s : String} (h : Unmarked s) (e : Encoding) :
    decode (e.encode s) = some s := by
  have hd := dropMark_of_unmarked h
  cases e with
  | plain =>
    rw [Encoding.encode_plain, decode_of_fromUTF8? (fromUTF8?_toUTF8 s), hd, String.ofList_toList]
  | marked =>
    rw [Encoding.encode_marked, decode_of_fromUTF8? (fromUTF8?_toUTF8 _), String.toList_append,
      String.toList_singleton, List.singleton_append, dropMark, if_pos rfl, String.ofList_toList]
  | sixteen order =>
    have hf : decodeFallback ((Encoding.sixteen order).encode s).data.toList = some s.toList := by
      rw [← bind_ofUnits16 order]
      cases order <;> rfl
    -- Whatever the text is, the mark in front keeps the bytes from being read as UTF-8.
    have hn : String.fromUTF8? ((Encoding.sixteen order).encode s) = none := by
      cases order with
      | low => exact fromUTF8?_eq_none rfl (by decide : (0xf8 : UInt8) ≤ 0xff)
      | high => exact fromUTF8?_eq_none rfl (by decide : (0xf8 : UInt8) ≤ 0xfe)
    rw [decode_of_malformed hn, hf, Option.map_some, hd, String.ofList_toList]

/-- The bytes begin with the mark of an encoding. -/
def Marked (bytes : ByteArray) : Prop := ∃ e : Encoding, e.mark ≠ [] ∧ e.mark <+: bytes.data.toList

theorem marked_iff {bytes : ByteArray} :
    Marked bytes ↔ ∃ e ∈ [Encoding.marked, .sixteen .low, .sixteen .high],
    e.mark <+: bytes.data.toList := by
  refine exists_congr fun e => and_congr_left fun _ => ?_
  rcases e with _ | _ | (_ | _) <;> simp [Encoding.mark]

instance : DecidablePred Marked := fun _ => decidable_of_iff _ marked_iff.symm

theorem windows1252_of_lt {byte : UInt8} (h : byte < 0x80) :
    windows1252 byte = Char.ofNat byte.toNat := by
  rw [windows1252, if_neg]
  exact fun hb => absurd h (UInt8.not_lt.mpr hb.1)

theorem windows1252_ne_orderMark (byte : UInt8) : windows1252 byte ≠ orderMark := by
  rw [windows1252]
  split
  · rename_i hb
    have hl : byte.toNat - 0x80 < windows1252Upper.length := by
      have h80 := UInt8.le_iff_toNat_le.mp hb.1
      have ha0 := UInt8.lt_iff_toNat_lt.mp hb.2
      simp [windows1252Upper] at *
      omega
    rw [List.getD_eq_getElem _ _ hl]
    have hu : orderMark ∉ windows1252Upper := by decide
    exact fun hc => hu (hc ▸ List.getElem_mem hl)
  · intro hc
    have hb := byte.toNat_lt
    have hn := congrArg Char.toNat hc
    rw [toNat_ofNat (by omega), show orderMark.toNat = 0xfeff from rfl] at hn
    omega

/-- Without a mark every byte is a character. -/
theorem decodeFallback_of_unmarked {bytes : ByteArray} (h : ¬ Marked bytes) :
    decodeFallback bytes.data.toList = some (bytes.data.toList.map windows1252) := by
  have hm (e : Encoding) (rest : List UInt8) (he : e.mark ≠ []) :
      bytes.data.toList ≠ e.mark ++ rest :=
    fun hb => h ⟨e, he, rest, hb.symm⟩
  unfold decodeFallback
  split
  · rename_i rest hb
    exact absurd hb (hm .marked rest (by decide))
  · rename_i rest hb
    exact absurd hb (hm (.sixteen .low) rest (by decide))
  · rename_i rest hb
    exact absurd hb (hm (.sixteen .high) rest (by decide))
  · rfl

theorem decode_of_unmarked {bytes : ByteArray} (hu : String.fromUTF8? bytes = none)
    (hm : ¬ Marked bytes) :
    decode bytes = some (String.ofList (bytes.data.toList.map windows1252)) := by
  have hd : dropMark (bytes.data.toList.map windows1252) = bytes.data.toList.map windows1252 := by
    cases bytes.data.toList with
    | nil => rfl
    | cons byte rest => rw [List.map_cons, dropMark, if_neg (windows1252_ne_orderMark byte)]
  rw [decode_of_malformed hu, decodeFallback_of_unmarked hm, Option.map_some, hd]

/-- Without a mark, bytes that are not UTF-8 are one character each, and those below 0x80 the
character of their number. -/
theorem exists_decode_of_unmarked {bytes : ByteArray} (hu : String.fromUTF8? bytes = none)
    (hm : ¬ Marked bytes) :
    ∃ s, decode bytes = some s ∧ s.length = bytes.size ∧
      ∀ (i : Nat) (hi : i < bytes.size), bytes[i] < 0x80 →
      s.toList[i]? = some (Char.ofNat bytes[i].toNat) := by
  refine ⟨_, decode_of_unmarked hu hm, ?_, fun i hi hb => ?_⟩
  · rw [String.length_ofList, List.length_map, Array.length_toList]
    rfl
  · have hg : bytes.data.toList[i]? = some bytes[i] :=
        List.getElem?_eq_getElem (Array.length_toList ▸ hi)
    rw [String.toList_ofList, List.getElem?_map, hg, Option.map_some, windows1252_of_lt hb]

/-- Only bytes behind a mark can be malformed. -/
theorem marked_of_decode_eq_none {bytes : ByteArray} (h : decode bytes = none) : Marked bytes := by
  by_contra hm
  cases hu : String.fromUTF8? bytes with
  | none => simp [decode_of_unmarked hu hm] at h
  | some s => simp [decode_of_fromUTF8? hu] at h

end CatalogDdl.Text
