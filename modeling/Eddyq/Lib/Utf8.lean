import Mathlib.Data.Int.Notation
import Mathlib.Data.Nat.Basic
import Mathlib.Data.String.Defs

/-!
# Bytes of texts

Rust addresses a text by its bytes. `isCharBoundary` looks at one byte and finds the places between two characters
(`isCharBoundary_iff`), of which there is one at most three bytes before any place (`exists_boundary`). `sliceTo` is the text before
a place; it is there at the boundaries (`sliceTo_append`). `searchDown` is the loop that goes back to one.
-/

namespace Eddyq.Lib

/-! ## Leads -/

/-- `u8::is_utf8_char_boundary`: the byte does not continue a character. -/
def isUtf8CharBoundary (b : UInt8) : Bool := -0x40 ≤ b.toInt8

theorem isUtf8CharBoundary_iff (b : UInt8) : isUtf8CharBoundary b = true ↔ b.toNat < 128 ∨ 192 ≤ b.toNat := by
  have hb := b.toNat_lt
  have hbyte : b.toInt8.toInt = (b.toNat : ℤ).bmod 256 := BitVec.toInt_eq_toNat_bmod _
  have hbound : (-0x40 : Int8).toInt = -64 := by decide
  rw [isUtf8CharBoundary, decide_eq_true_eq, Int8.le_iff_toInt_le, hbyte, hbound, Int.bmod_def]
  omega

theorem isUtf8CharBoundary_ofNat (n : Nat) : isUtf8CharBoundary (UInt8.ofNat n) = true ↔ n % 256 < 128 ∨ 192 ≤ n % 256 := by
  rw [isUtf8CharBoundary_iff, UInt8.toNat_ofNat']

/-- The first byte of a character is a lead, and no other. -/
theorem utf8EncodeChar_lead (c : Char) :
    ∃ b bs, String.utf8EncodeChar c = b :: bs ∧ isUtf8CharBoundary b = true ∧ ∀ x ∈ bs, ¬ isUtf8CharBoundary x = true := by
  unfold String.utf8EncodeChar
  dsimp only
  split
  · exact ⟨_, _, rfl, (isUtf8CharBoundary_ofNat _).mpr (by omega), nofun⟩
  split
  · refine ⟨_, _, rfl, (isUtf8CharBoundary_ofNat _).mpr (by omega), fun x hx => ?_⟩
    simp only [List.mem_cons, List.not_mem_nil, or_false] at hx
    rw [hx, isUtf8CharBoundary_ofNat]
    omega
  split
  · refine ⟨_, _, rfl, (isUtf8CharBoundary_ofNat _).mpr (by omega), fun x hx => ?_⟩
    simp only [List.mem_cons, List.not_mem_nil, or_false] at hx
    rcases hx with rfl | rfl <;> rw [isUtf8CharBoundary_ofNat] <;> omega
  · refine ⟨_, _, rfl, (isUtf8CharBoundary_ofNat _).mpr (by omega), fun x hx => ?_⟩
    simp only [List.mem_cons, List.not_mem_nil, or_false] at hx
    rcases hx with rfl | rfl | rfl <;> rw [isUtf8CharBoundary_ofNat] <;> omega

theorem isUtf8CharBoundary_getElem_utf8EncodeChar (c : Char) {i : Nat} (hi : i < (String.utf8EncodeChar c).length) :
    isUtf8CharBoundary (String.utf8EncodeChar c)[i] = true ↔ i = 0 := by
  obtain ⟨b, bs, henc, hb, hbs⟩ := utf8EncodeChar_lead c
  simp only [henc]
  cases i with
  | zero => simpa using hb
  | succ i => simpa using hbs _ (List.getElem_mem _)

/-- **A byte of a text** is a lead if and only if it is the first of a character. -/
theorem isUtf8CharBoundary_getUTF8Byte (s : String) (p : String.Pos.Raw) (h : p < s.rawEndPos) :
    isUtf8CharBoundary (s.getUTF8Byte p h) = true ↔ (s.getUTF8Byte p h).IsUTF8FirstByte := by
  induction s using String.push_induction with
  | empty => simp [String.Pos.Raw.lt_iff] at h
  | push s c ih =>
    simp only [String.getUTF8Byte, String.toByteArray_push]
    by_cases hp : p < s.rawEndPos
    · rw [ByteArray.getElem_append_left hp]
      exact ih hp
    · rw [ByteArray.getElem_append_right (by simpa [String.Pos.Raw.lt_iff] using hp)]
      simp only [List.utf8Encode_singleton, List.getElem_toByteArray]
      rw [isUtf8CharBoundary_getElem_utf8EncodeChar, UInt8.isUTF8FirstByte_getElem_utf8EncodeChar]

/-! ## Boundaries -/

/-- `str::is_char_boundary`. -/
def isCharBoundary (s : String) (i : Nat) : Bool :=
  if i = 0 then true
  else if h : i < s.utf8ByteSize then isUtf8CharBoundary (s.getUTF8Byte ⟨i⟩ h)
  else i = s.utf8ByteSize

/-- `&s[..i]`; nothing stands for a panic. -/
def sliceTo (s : String) (i : Nat) : Option String :=
  if isCharBoundary s i then String.fromUTF8? (s.toByteArray.extract 0 i) else none

theorem isCharBoundary_zero (s : String) : isCharBoundary s 0 = true := if_pos rfl

theorem isCharBoundary_iff_isValid {s : String} {i : Nat} :
    isCharBoundary s i = true ↔ (⟨i⟩ : String.Pos.Raw).IsValid s := by
  unfold isCharBoundary
  split
  · next h =>
    subst h
    exact iff_of_true rfl String.Pos.Raw.isValid_zero
  · rw [String.Pos.Raw.isValid_iff_isUTF8FirstByte]
    split
    · next hlt =>
      have hne : (⟨i⟩ : String.Pos.Raw) ≠ s.rawEndPos := fun he => Nat.ne_of_lt hlt (congrArg String.Pos.Raw.byteIdx he)
      rw [isUtf8CharBoundary_getUTF8Byte s ⟨i⟩ hlt]
      exact ⟨fun hb => .inr ⟨hlt, hb⟩, fun hb => (hb.resolve_left hne).2⟩
    · next hge =>
      rw [decide_eq_true_eq]
      exact ⟨fun he => .inl (String.Pos.Raw.ext he), fun hb => hb.elim (congrArg String.Pos.Raw.byteIdx) fun h => absurd h.1 hge⟩

/-- **Boundaries** are the places between two parts of the text. -/
theorem isCharBoundary_iff {s : String} {i : Nat} :
    isCharBoundary s i = true ↔ ∃ a b : String, s = a ++ b ∧ i = a.utf8ByteSize := by
  rw [isCharBoundary_iff_isValid, String.Pos.Raw.isValid_iff_exists_append]
  simp only [String.Pos.Raw.ext_iff, String.byteIdx_rawEndPos]

theorem sliceTo_append (a b : String) : sliceTo (a ++ b) a.utf8ByteSize = some a := by
  have hbytes : (a ++ b).toByteArray.extract 0 a.utf8ByteSize = a.toByteArray := by
    rw [String.toByteArray_append, ← String.size_toByteArray, ByteArray.extract_append_eq_left rfl]
  rw [sliceTo, if_pos (isCharBoundary_iff.mpr ⟨a, b, rfl, rfl⟩), hbytes, String.fromUTF8?, dif_pos a.isValidUTF8]
  rfl

/-- **A boundary is near**: a character has at most four bytes. -/
theorem exists_boundary (s : String) {i : Nat} (h : i ≤ s.utf8ByteSize) :
    ∃ j ≤ i, i ≤ j + 3 ∧ isCharBoundary s j = true := by
  simp only [isCharBoundary_iff_isValid]
  induction s using String.push_induction with
  | empty => exact ⟨0, Nat.zero_le _, by simp at h; omega, String.Pos.Raw.isValid_zero⟩
  | push s c ih =>
    rw [String.utf8ByteSize_push] at h
    have hsize := c.utf8Size_le_four
    by_cases hi : i ≤ s.utf8ByteSize
    · obtain ⟨j, hj, hnear, hvalid⟩ := ih hi
      exact ⟨j, hj, hnear, String.Pos.Raw.isValid_push.mpr (.inl hvalid)⟩
    · by_cases hend : i = s.utf8ByteSize + c.utf8Size
      · exact ⟨i, le_rfl, by omega, String.Pos.Raw.isValid_push.mpr (.inr (String.Pos.Raw.ext (by simpa using hend)))⟩
      · exact ⟨s.utf8ByteSize, by omega, by omega,
          String.Pos.Raw.isValid_push.mpr (.inl String.Pos.Raw.isValid_rawEndPos)⟩

/-- A text of one-byte characters has as many bytes as characters. -/
theorem utf8ByteSize_ofList {l : List Char} (h : ∀ c ∈ l, c.utf8Size = 1) : (String.ofList l).utf8ByteSize = l.length := by
  induction l with
  | nil => rfl
  | cons c l ih =>
    have hcons : String.ofList (c :: l) = String.singleton c ++ String.ofList l := by
      rw [String.singleton_eq_ofList, ← String.ofList_append, List.singleton_append]
    rw [hcons, String.utf8ByteSize_append, String.utf8ByteSize_singleton, h c List.mem_cons_self,
      ih fun d hd => h d (List.mem_cons_of_mem c hd), List.length_cons, Nat.add_comm]

/-! ## The loop -/

/-- `while !p(i) { i -= 1; }`; nothing stands for an underflow. -/
def searchDown (p : Nat → Bool) : Nat → Option Nat
  | 0 => if p 0 then some 0 else none
  | i + 1 => if p (i + 1) then some (i + 1) else searchDown p i

/-- The loop stops at the next place that is one. -/
theorem searchDown_spec {p : Nat → Bool} (h0 : p 0 = true) :
    ∀ i, ∃ j ≤ i, searchDown p i = some j ∧ p j = true ∧ ∀ k ≤ i, p k = true → k ≤ j
  | 0 => ⟨0, le_rfl, if_pos h0, h0, fun _ hk _ => hk⟩
  | i + 1 => by
    unfold searchDown
    split
    · next h => exact ⟨i + 1, le_rfl, rfl, h, fun _ hk _ => hk⟩
    · next h =>
      obtain ⟨j, hj, heq, hp, hmax⟩ := searchDown_spec h0 i
      refine ⟨j, Nat.le_succ_of_le hj, heq, hp, fun k hk hpk => hmax k ?_ hpk⟩
      have hne : k ≠ i + 1 := by
        rintro rfl
        exact h hpk
      exact Nat.le_of_lt_succ (lt_of_le_of_ne hk hne)

end Eddyq.Lib
