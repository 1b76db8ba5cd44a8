import Eddyq.Job
import Eddyq.Lib.Double

/-!
# Payloads as text

`serde_json::to_string` and `from_str` on the values of the model (`jsonText`, `readJson`). A value is read back from its
text exactly if it is nested less than 128 deep (`readJson_jsonText_iff`): writing has no limit, and reading has.
-/

namespace Eddyq

open Lib Lib.Json

mutual
/-- A value as it is written. -/
def Json.toValue : Json → Value
  | .null => .null
  | .bool b => .bool b
  | .num n => .num (decimal n)
  | .str s => .str s.toList
  | .arr vs => .arr (toValues vs)
  | .obj fields => .obj (toFields fields)
def toValues : List Json → List Value
  | [] => []
  | v :: vs => v.toValue :: toValues vs
def toFields : List (String × Json) → List (List Char × Value)
  | [] => []
  | (k, v) :: fields => (k.toList, v.toValue) :: toFields fields
end

mutual
/-- A value that was read; the numbers of the model are whole. -/
def ofValue : Value → Option Json
  | .null => some .null
  | .bool b => some (.bool b)
  | .num t => (readInt t).map .num
  | .str s => some (.str (String.ofList s))
  | .arr vs => (ofValues vs).map .arr
  | .obj fields => (ofFields fields).map .obj
def ofValues : List Value → Option (List Json)
  | [] => some []
  | v :: vs => (ofValue v).bind fun v => (ofValues vs).map (v :: ·)
def ofFields : List (List Char × Value) → Option (List (String × Json))
  | [] => some []
  | (k, v) :: fields => (ofValue v).bind fun v => (ofFields fields).map ((String.ofList k, v) :: ·)
end

/-- `to_string` of a value. -/
def jsonText (v : Json) : List Char := v.toValue.print

/-- `serde_json::from_str`. -/
def readJson (l : List Char) : Option Json := (fromStr l).bind ofValue

/-- How deep a value is nested. -/
def Json.depth (v : Json) : Nat := v.toValue.depth

mutual
theorem ofValue_toValue : ∀ v : Json, ofValue v.toValue = some v
  | .null => rfl
  | .bool _ => rfl
  | .num n => by rw [Json.toValue, ofValue, readInt_eq_some.mpr rfl]; rfl
  | .str s => by rw [Json.toValue, ofValue, String.ofList_toList]
  | .arr vs => by rw [Json.toValue, ofValue, ofValues_toValues vs]; rfl
  | .obj fields => by rw [Json.toValue, ofValue, ofFields_toFields fields]; rfl
theorem ofValues_toValues : ∀ vs : List Json, ofValues (toValues vs) = some vs
  | [] => rfl
  | v :: vs => by rw [toValues, ofValues, ofValue_toValue v, ofValues_toValues vs]; rfl
theorem ofFields_toFields : ∀ fields : List (String × Json), ofFields (toFields fields) = some fields
  | [] => rfl
  | (k, v) :: fields => by
    rw [toFields, ofFields, ofValue_toValue v, ofFields_toFields fields, String.ofList_toList]
    rfl
end

mutual
theorem tokens_toValue : ∀ v : Json, ∀ t ∈ v.toValue.tokens, NumToken t
  | .null, _, h => by cases h
  | .bool _, _, h => by cases h
  | .num n, _, h => List.mem_singleton.mp h ▸ numToken_decimal n
  | .str _, _, h => by cases h
  | .arr vs, t, h => tokens_toValues vs t h
  | .obj fields, t, h => tokens_toFields fields t h
theorem tokens_toValues : ∀ vs : List Json, ∀ t ∈ tokensAll (toValues vs), NumToken t
  | [], _, h => by cases h
  | v :: vs, t, h => (List.mem_append.mp h).elim (tokens_toValue v t) (tokens_toValues vs t)
theorem tokens_toFields : ∀ fields : List (String × Json), ∀ t ∈ tokensFields (toFields fields), NumToken t
  | [], _, h => by cases h
  | (_, v) :: fields, t, h => (List.mem_append.mp h).elim (tokens_toValue v t) (tokens_toFields fields t)
end

mutual
/-- What is read is nested as its text. -/
theorem depth_ofValue : ∀ {w : Value} {v : Json}, ofValue w = some v → v.toValue.depth = w.depth
  | .null, _, h => by cases h; rfl
  | .bool _, _, h => by cases h; rfl
  | .num t, _, h => by
    obtain ⟨n, -, rfl⟩ := Option.map_eq_some_iff.mp h
    rfl
  | .str _, _, h => by cases h; rfl
  | .arr ws, _, h => by
    obtain ⟨vs, hvs, rfl⟩ := Option.map_eq_some_iff.mp h
    exact congrArg (· + 1) (depth_ofValues hvs)
  | .obj fs, _, h => by
    obtain ⟨fields, hfields, rfl⟩ := Option.map_eq_some_iff.mp h
    exact congrArg (· + 1) (depth_ofFields hfields)
theorem depth_ofValues : ∀ {ws : List Value} {vs : List Json}, ofValues ws = some vs →
    depthAll (toValues vs) = depthAll ws
  | [], _, h => by cases h; rfl
  | w :: ws, _, h => by
    obtain ⟨v, hv, h⟩ := Option.bind_eq_some_iff.mp h
    obtain ⟨vs, hvs, rfl⟩ := Option.map_eq_some_iff.mp h
    exact congrArg₂ max (depth_ofValue hv) (depth_ofValues hvs)
theorem depth_ofFields : ∀ {fs : List (List Char × Value)} {fields : List (String × Json)}, ofFields fs = some fields →
    depthFields (toFields fields) = depthFields fs
  | [], _, h => by cases h; rfl
  | (k, w) :: fs, _, h => by
    obtain ⟨v, hv, h⟩ := Option.bind_eq_some_iff.mp h
    obtain ⟨fields, hfields, rfl⟩ := Option.map_eq_some_iff.mp h
    exact congrArg₂ max (depth_ofValue hv) (depth_ofFields hfields)
end

theorem depth_readJson {l : List Char} {v : Json} (h : readJson l = some v) : v.depth < 128 := by
  obtain ⟨w, hw, hv⟩ := Option.bind_eq_some_iff.mp h
  rw [Json.depth, depth_ofValue hv]
  exact depth_fromStr hw

/-- **The limit of reading** is the only one. -/
theorem readJson_jsonText_iff {v : Json} : readJson (jsonText v) = some v ↔ v.depth < 128 := by
  refine ⟨depth_readJson, fun h => ?_⟩
  rw [readJson, jsonText, fromStr_print v.toValue (tokens_toValue v) h]
  exact ofValue_toValue v

end Eddyq
