import Eddyq.JsonText

/-!
# `cjson` and the readers of its texts

A Lua table with strings, numbers and booleans, as `cjson.encode` writes it and `cjson.decode` reads it. A number is a
double with a whole value and is written with 14 significant digits, so that a number is read back as itself if it is
`Precise`; any other stays large, however often it is written again (`Keeps`), and no integer field of `serde` reads its
text (`readInteger_g14`).
-/

namespace Eddyq.Redis

open Lib Lib.Json

/-- A value of a table. -/
inductive LuaValue
  | string (s : List Char)
  | number (n : ℤ)
  | boolean (b : Bool)
  deriving DecidableEq

/-- A table by its keys; no reader depends on their order. -/
abbrev LuaTable := List (List Char × LuaValue)

def LuaValue.toValue : LuaValue → Value
  | .string s => .str s
  | .number n => .num (g14 n)
  | .boolean b => .bool b

/-- The members of a table as they are written. -/
def LuaTable.fields (t : LuaTable) : List (List Char × Value) := members (fun v => some v.toValue) t

/-- `cjson.encode`. -/
def cjsonEncode (t : LuaTable) : List Char := (Value.obj t.fields).print

def LuaValue.ofValue : Value → Option LuaValue
  | .str s => some (.string s)
  | .num token => some (.number (nearest (readNumber token)))
  | .bool b => some (.boolean b)
  | _ => none

/-- `cjson.decode`, for tables of this kind. -/
def cjsonDecode (raw : List Char) : Option LuaTable :=
  match fromStr raw with
  | some (.obj fields) => fields.mapM fun f => (LuaValue.ofValue f.2).map (f.1, ·)
  | _ => none

/-- `t[k]`. -/
def LuaTable.get? (t : LuaTable) (k : List Char) : Option LuaValue := (t.find? fun m => m.1 = k).map Prod.snd

/-- `t[k] = v`. -/
def LuaTable.set (t : LuaTable) (k : List Char) (v : LuaValue) : LuaTable :=
  if t.any fun m => m.1 = k then t.map fun m => if m.1 = k then (k, v) else m else t ++ [(k, v)]

/-! ## Numbers -/

/-- A number of at most 14 digits. -/
def Precise (n : ℤ) : Prop := n.natAbs < 10 ^ 14

instance (n : ℤ) : Decidable (Precise n) := inferInstanceAs (Decidable (_ < _))

/-- The number after one more writing and reading. -/
def reread (n : ℤ) : ℤ := nearest (readNumber (g14 n))

theorem nearest_precise {n : ℤ} (h : Precise n) : nearest n = n := nearest_small (lt_trans h (by norm_num))

theorem reread_precise {n : ℤ} (h : Precise n) : reread n = n := by
  rw [reread, g14_small h, readNumber_decimal, nearest_precise h]

theorem not_precise_nearest {n : ℤ} (h : ¬ Precise n) : ¬ Precise (nearest n) := by
  unfold Precise at h ⊢
  by_cases h53 : n.natAbs < 2 ^ 53
  · rwa [nearest_small h53]
  · have := nearest_large (not_lt.mp h53)
    omega

theorem not_precise_reread {n : ℤ} (h : ¬ Precise n) : ¬ Precise (reread n) := by
  refine not_precise_nearest ?_
  have hlarge := round14_large (not_lt.mp h)
  have hn : n ≠ 0 := by
    rintro rfl
    exact h (by decide)
  rw [Precise, readNumber_g14, Int.natAbs_mul, Int.natAbs_sign_of_ne_zero hn, one_mul, Int.natAbs_natCast]
  omega

/-- A number of a table stands for the one that was sent. -/
def Keeps (n v : ℤ) : Prop := if Precise n then v = n else ¬ Precise v

theorem keeps_nearest (n : ℤ) : Keeps n (nearest n) := by
  unfold Keeps
  split
  · next h => exact nearest_precise h
  · next h => exact not_precise_nearest h

theorem Keeps.reread {n v : ℤ} (h : Keeps n v) : Keeps n (reread v) := by
  unfold Keeps at h ⊢
  split
  · next hn =>
    rw [if_pos hn] at h
    rw [h, reread_precise hn]
  · next hn =>
    rw [if_neg hn] at h
    exact not_precise_reread h

/-! ## Writing and reading -/

def LuaValue.reread : LuaValue → LuaValue
  | .number n => .number (Redis.reread n)
  | v => v

theorem fields_cons (m : List Char × LuaValue) (t : LuaTable) :
    LuaTable.fields (m :: t) = (m.1, m.2.toValue) :: LuaTable.fields t := rfl

theorem mem_fields {t : LuaTable} {f : List Char × Value} (h : f ∈ t.fields) : ∃ v : LuaValue, f.2 = v.toValue := by
  obtain ⟨m, -, hm⟩ := List.mem_filterMap.mp h
  cases hm
  exact ⟨m.2, rfl⟩

theorem toValue_plain (v : LuaValue) : v.toValue.depth = 0 ∧ ∀ t ∈ v.toValue.tokens, NumToken t := by
  cases v with
  | number n => exact ⟨rfl, fun t ht => List.mem_singleton.mp ht ▸ numToken_g14 n⟩
  | string s => exact ⟨rfl, nofun⟩
  | boolean b => exact ⟨rfl, nofun⟩

theorem fromStr_cjsonEncode (t : LuaTable) : fromStr (cjsonEncode t) = some (.obj t.fields) := by
  rw [cjsonEncode, ← printObject_print]
  refine fromStr_plain fun f hf => ?_
  obtain ⟨v, hv⟩ := mem_fields hf
  rw [hv]
  exact toValue_plain v

/-- **A table** is read as it was written, with its numbers read again. -/
theorem cjsonDecode_encode (t : LuaTable) : cjsonDecode (cjsonEncode t) = some (t.map fun m => (m.1, m.2.reread)) := by
  rw [cjsonDecode, fromStr_cjsonEncode]
  show t.fields.mapM _ = _
  induction t with
  | nil => rfl
  | cons m t ih =>
    have hm : (LuaValue.ofValue m.2.toValue).map (m.1, ·) = some (m.1, m.2.reread) := by
      cases m.2 <;> rfl
    rw [fields_cons, List.mapM_cons, hm, ih]
    rfl

/-! ## `serde` -/

/-- An integer field with its range. -/
def readInteger (lo hi : ℤ) : Option Value → Option ℤ
  | some (.num token) => (readInt token).filter fun n => lo ≤ n ∧ n ≤ hi
  | _ => none

def readI16 : Option Value → Option ℤ := readInteger (-2 ^ 15) (2 ^ 15 - 1)

def readI32 : Option Value → Option ℤ := readInteger (-2 ^ 31) (2 ^ 31 - 1)

def readI64 : Option Value → Option ℤ := readInteger (-2 ^ 63) (2 ^ 63 - 1)

/-- `#[serde(default)]`. -/
def orDefault (d : ℤ) (read : Option Value → Option ℤ) : Option Value → Option ℤ
  | none => some d
  | v => read v

/-- **An integer field** reads the precise numbers in its range, and no other. -/
theorem readInteger_g14 (lo hi n : ℤ) :
    readInteger lo hi (some (.num (g14 n))) = if Precise n ∧ lo ≤ n ∧ n ≤ hi then some n else none := by
  show (readInt (g14 n)).filter _ = _
  by_cases h : Precise n
  · rw [g14_small h, readInt_eq_some.mpr rfl, Option.filter_some]
    simp [h]
  · rw [readInt_g14_large (not_lt.mp h), if_neg fun hn => h hn.1]
    rfl

theorem readInteger_small {lo hi n : ℤ} (h : Precise n) (hlo : lo ≤ n) (hhi : n ≤ hi) :
    readInteger lo hi (some (.num (g14 n))) = some n := by
  rw [readInteger_g14, if_pos ⟨h, hlo, hhi⟩]

/-- What is read of a number that stands for another one. -/
theorem readI64_keeps {n v : ℤ} (h : Keeps n v) : readI64 (some (.num (g14 v))) = if Precise n then some n else none := by
  unfold Keeps at h
  rw [readI64, readInteger_g14]
  by_cases hn : Precise n
  · rw [if_pos hn] at h ⊢
    unfold Precise at hn
    rw [h, if_pos ⟨hn, by omega, by omega⟩]
  · rw [if_neg hn] at h ⊢
    rw [if_neg fun hv => h hv.1]

end Eddyq.Redis
