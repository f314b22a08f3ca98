import Mathlib.Data.List.Lex

/-!
# The order of texts and the order of their bytes

Texts are compared character by character, and a service that stores them as bytes compares byte by
byte.  UTF-8 is made so that this is the same: a character with a higher number is written with a
higher first byte, or with the same one and a higher byte behind it.

* `Text.encode_lt_encode`: two characters differ within what both are written with;
* `Text.bytes_lt_bytes`: a text that comes before another has bytes that come before.
-/

namespace ShardSweep.Text

/-- What a text is stored as. -/
def bytes (s : String) : List UInt8 :=
  s.toUTF8.data.toList

theorem bytes_eq_flatMap (s : String) : bytes s = s.toList.flatMap String.utf8EncodeChar := by
  have hencode : s.toUTF8 = s.toList.utf8Encode := by
    rw [String.toUTF8_eq_toByteArray, ← String.toByteArray_ofList, String.ofList_toList]
  rw [bytes, hencode, List.utf8Encode, List.data_toByteArray, List.toList_toArray]

/-- Two characters differ within what both are written with, whatever comes behind. -/
theorem encode_lt_encode {c d : Char} (h : c < d) (cs ds : List UInt8) :
    String.utf8EncodeChar c ++ cs < String.utf8EncodeChar d ++ ds := by
  have hlt : c.val.toNat < d.val.toNat := h
  have hbound : d.val.toNat < 1114112 := by
    have hvalid := d.valid
    simp only [UInt32.isValidChar, Nat.isValidChar] at hvalid
    omega
  unfold String.utf8EncodeChar
  generalize c.val.toNat = v at hlt ⊢
  generalize d.val.toNat = w at hlt hbound ⊢
  -- The first byte tells how many there are; among characters of one length the digits decide.
  have hbyte : ∀ m n : Nat, UInt8.ofNat m < UInt8.ofNat n ↔ m % 256 < n % 256 := by
    intro m n
    simp [UInt8.lt_iff_toNat_lt]
  have hsame : ∀ m n : Nat, UInt8.ofNat m = UInt8.ofNat n ↔ m % 256 = n % 256 := by
    intro m n
    simp [← UInt8.toNat_inj]
  have htwo : ∀ n, n / 4096 = n / 64 / 64 := fun n => (Nat.div_div_eq_div_mul n 64 64).symm
  have hthree : ∀ n, n / 262144 = n / 64 / 64 / 64 := by
    intro n
    rw [← htwo, Nat.div_div_eq_div_mul]
  simp only [htwo, hthree]
  split_ifs <;>
    simp only [List.cons_append, List.nil_append, List.cons_lt_cons_iff, hbyte, hsame] <;> omega

/-- Texts are in the order of their bytes. -/
theorem bytes_lt_bytes {s t : String} (h : s < t) : bytes s < bytes t := by
  rw [bytes_eq_flatMap, bytes_eq_flatMap]
  have hlex : List.Lex (· < ·) s.toList t.toList := String.lt_iff.mp h
  generalize s.toList = cs, t.toList = ds at hlex ⊢
  induction hlex with
  | @nil d ds =>
    rw [List.flatMap_cons, List.flatMap_nil]
    have hne : String.utf8EncodeChar d ≠ [] := String.utf8EncodeChar_ne_nil
    obtain ⟨b, bs, hd⟩ := List.exists_cons_of_ne_nil hne
    rw [hd]
    exact List.nil_lt_cons b _
  | rel hlt =>
    rw [List.flatMap_cons, List.flatMap_cons]
    exact encode_lt_encode hlt _ _
  | @cons c cs ds hrest ih =>
    rw [List.flatMap_cons, List.flatMap_cons]
    generalize String.utf8EncodeChar c = front
    induction front with
    | nil => exact ih
    | cons b front ih => exact List.cons_lt_cons_iff.mpr (.inr ⟨rfl, ih⟩)

/-- The last of three bytes here comes after the last of four, but the first byte decides. -/
example : "\uffff" < "𐀀" ∧ bytes "\uffff" < bytes "𐀀" := by decide

end ShardSweep.Text
