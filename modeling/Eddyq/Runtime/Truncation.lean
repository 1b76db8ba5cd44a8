import Eddyq.Lib.Utf8
import Eddyq.Runtime.Envelope

/-!
# What an error log stores

`as_error_entry` caps the message and the stack of a failure. `truncate_for_storage` makes room for the marker of the whole text,
which is the widest that the text can need (`truncationMarker_le`), goes back to a boundary, which takes at most three bytes, and
says how much it has dropped (`truncateForStorage_cut`). A budget with less room than that leaves the marker alone.
-/

namespace Eddyq.Runtime

open Lib

/-! ## Truncation -/

/-- `truncation_marker`. -/
def truncationMarker (dropped : Nat) : String := "...[truncated " ++ toString dropped ++ " bytes]"

/-- `truncate_for_storage`; nothing stands for a panic. -/
def truncateForStorage (s : String) (maxBytes : Nat) : Option String :=
  if s.utf8ByteSize ≤ maxBytes then some s
  else do
    -- no marker of this text is wider: at most all of its bytes are dropped
    let reserve := (truncationMarker s.utf8ByteSize).utf8ByteSize
    let cut ← searchDown (isCharBoundary s) (maxBytes - reserve)
    let kept ← sliceTo s cut
    some (kept ++ truncationMarker (s.utf8ByteSize - cut))

/-- `MAX_ERROR_MESSAGE_BYTES`. -/
def maxErrorMessageBytes : Nat := 2048

/-- `MAX_ERROR_STACK_BYTES`. -/
def maxErrorStackBytes : Nat := 4096

/-- The fields of an entry of the error log, but for its time. -/
structure ErrorEntry where
  message : String
  name : Option String
  stack : Option String
  directive : Option Directive

/-- `as_error_entry`. -/
def asErrorEntry (f : Js.HandlerFailure) : Option ErrorEntry := do
  let message ← truncateForStorage (String.ofList f.message) maxErrorMessageBytes
  let stack ← f.stack.mapM fun stack => truncateForStorage (String.ofList stack) maxErrorStackBytes
  some { message, name := f.name.map String.ofList, stack, directive := f.directive }

/-! ## Markers -/

section Markers

variable {m n : Nat}

theorem utf8ByteSize_toString (n : Nat) : (toString n).utf8ByteSize = (Nat.toDigits 10 n).length := by
  refine utf8ByteSize_ofList fun c hc => ?_
  have hdigit := isDigit_toDigits hc
  simp only [Char.isDigit, Bool.and_eq_true, decide_eq_true_eq] at hdigit
  exact Char.utf8Size_eq_one_iff.mpr (UInt32.le_trans hdigit.2 (by decide))

theorem truncationMarker_size (n : Nat) : (truncationMarker n).utf8ByteSize = 21 + (Nat.toDigits 10 n).length := by
  have hhead : "...[truncated ".utf8ByteSize = 14 := by decide
  have htail : " bytes]".utf8ByteSize = 7 := by decide
  rw [truncationMarker, String.utf8ByteSize_append, String.utf8ByteSize_append, utf8ByteSize_toString, hhead, htail]
  omega

/-- **The marker of a larger number** is no narrower. -/
theorem truncationMarker_le (h : m ≤ n) : (truncationMarker m).utf8ByteSize ≤ (truncationMarker n).utf8ByteSize := by
  have hpos : 0 < (Nat.toDigits 10 n).length := List.length_pos_iff.mpr Nat.toDigits_ne_nil
  have hn : n < 10 ^ (Nat.toDigits 10 n).length := (Nat.length_toDigits_le_iff (by decide) hpos).mp le_rfl
  have hdigits := (Nat.length_toDigits_le_iff (by decide) hpos).mpr (lt_of_le_of_lt h hn)
  rw [truncationMarker_size, truncationMarker_size]
  omega

end Markers

/-! ## Cuts -/

section Cuts

variable {s : String} {maxBytes : Nat}

/-- The budget has room for every marker that the text may need. -/
def Roomy (s : String) (maxBytes : Nat) : Prop :=
  ∀ dropped ≤ s.utf8ByteSize, (truncationMarker dropped).utf8ByteSize ≤ maxBytes

theorem roomy_iff : Roomy s maxBytes ↔ (truncationMarker s.utf8ByteSize).utf8ByteSize ≤ maxBytes :=
  ⟨fun h => h _ le_rfl, fun h _ hd => (truncationMarker_le hd).trans h⟩

/-- **A text that does not fit** is cut in two, at most three bytes before the place that the marker leaves. -/
theorem truncateForStorage_cut (h : maxBytes < s.utf8ByteSize) : ∃ kept rest : String, s = kept ++ rest ∧
    truncateForStorage s maxBytes = some (kept ++ truncationMarker rest.utf8ByteSize) ∧
    kept.utf8ByteSize ≤ maxBytes - (truncationMarker s.utf8ByteSize).utf8ByteSize ∧
    maxBytes - (truncationMarker s.utf8ByteSize).utf8ByteSize ≤ kept.utf8ByteSize + 3 := by
  generalize hstart : maxBytes - (truncationMarker s.utf8ByteSize).utf8ByteSize = start
  obtain ⟨cut, hle, hsearch, hcut, hmax⟩ := searchDown_spec (isCharBoundary_zero s) start
  obtain ⟨near, hnear, hthree, hboundary⟩ := exists_boundary s (i := start) (by omega)
  have hclose := hmax near hnear hboundary
  obtain ⟨kept, rest, rfl, rfl⟩ := isCharBoundary_iff.mp hcut
  refine ⟨kept, rest, rfl, ?_, hle, by omega⟩
  rw [truncateForStorage, if_neg (not_le.mpr h)]
  dsimp only
  rw [hstart, hsearch, Option.bind_eq_bind, Option.bind_some, sliceTo_append, Option.bind_eq_bind, Option.bind_some,
    String.utf8ByteSize_append, Nat.add_sub_cancel_left]

theorem truncateForStorage_fits (h : s.utf8ByteSize ≤ maxBytes) : truncateForStorage s maxBytes = some s := if_pos h

/-- Truncation never panics. -/
theorem truncateForStorage_total (s : String) (maxBytes : Nat) : ∃ out, truncateForStorage s maxBytes = some out := by
  by_cases h : s.utf8ByteSize ≤ maxBytes
  · exact ⟨s, truncateForStorage_fits h⟩
  · obtain ⟨kept, rest, _, heq, _⟩ := truncateForStorage_cut (not_le.mp h)
    exact ⟨_, heq⟩

variable {out : String}

/-- The marker counts toward the budget. -/
theorem truncateForStorage_le (hroom : Roomy s maxBytes) (h : truncateForStorage s maxBytes = some out) :
    out.utf8ByteSize ≤ maxBytes := by
  by_cases hfits : s.utf8ByteSize ≤ maxBytes
  · rw [truncateForStorage_fits hfits, Option.some.injEq] at h
    rwa [← h]
  · obtain ⟨kept, rest, rfl, heq, hle, _⟩ := truncateForStorage_cut (not_le.mp hfits)
    rw [heq, Option.some.injEq] at h
    have hmarker := truncationMarker_le (Nat.le_add_left rest.utf8ByteSize kept.utf8ByteSize)
    rw [roomy_iff] at hroom
    rw [String.utf8ByteSize_append] at hroom hle
    rw [← h, String.utf8ByteSize_append]
    omega

/-- With less room than that, nothing of the text is left. -/
theorem truncateForStorage_marker (hroom : ¬ Roomy s maxBytes) (h : maxBytes < s.utf8ByteSize) :
    truncateForStorage s maxBytes = some (truncationMarker s.utf8ByteSize) := by
  obtain ⟨kept, rest, rfl, heq, hle, _⟩ := truncateForStorage_cut h
  rw [roomy_iff] at hroom
  have hempty : kept = "" := String.utf8ByteSize_eq_zero_iff.mp (by omega)
  rw [heq, hempty, String.empty_append, String.empty_append]

/-- **Truncation** never panics. Its result is the text if that fits; otherwise it is what comes before a boundary with the marker
of what comes after, with no more than three bytes dropped for the boundary. It fits a budget with room for the markers, and with
less room nothing but the marker is left of a text that does not fit. -/
theorem truncateForStorage_spec (s : String) (maxBytes : Nat) : ∃ out, truncateForStorage s maxBytes = some out ∧
    (Roomy s maxBytes → out.utf8ByteSize ≤ maxBytes) ∧
    (s.utf8ByteSize ≤ maxBytes → out = s) ∧
    (maxBytes < s.utf8ByteSize → ∃ kept rest : String, s = kept ++ rest ∧
      out = kept ++ truncationMarker rest.utf8ByteSize ∧
      rest.utf8ByteSize ≤ s.utf8ByteSize - (maxBytes - (truncationMarker s.utf8ByteSize).utf8ByteSize) + 3) ∧
    (¬ Roomy s maxBytes → maxBytes < s.utf8ByteSize → out = truncationMarker s.utf8ByteSize) := by
  obtain ⟨out, hout⟩ := truncateForStorage_total s maxBytes
  refine ⟨out, hout, fun hroom => truncateForStorage_le hroom hout, fun hfits => ?_, fun h => ?_, fun hroom h => ?_⟩
  · exact Option.some.inj (hout.symm.trans (truncateForStorage_fits hfits))
  · obtain ⟨kept, rest, hs, heq, _, hclose⟩ := truncateForStorage_cut h
    have hsize : s.utf8ByteSize = kept.utf8ByteSize + rest.utf8ByteSize := by rw [hs, String.utf8ByteSize_append]
    exact ⟨kept, rest, hs, Option.some.inj (hout.symm.trans heq), by omega⟩
  · exact Option.some.inj (hout.symm.trans (truncateForStorage_marker hroom h))

/-- A short text fits a budget that no marker fits. -/
theorem short_text_kept : ¬ Roomy "boom" 10 ∧ truncateForStorage "boom" 10 = some "boom" ∧
    truncateForStorage "boom" 10 ≠ some (truncationMarker "boom".utf8ByteSize) := by
  have hfits : truncateForStorage "boom" 10 = some "boom" := truncateForStorage_fits (by decide)
  refine ⟨?_, hfits, fun h => ?_⟩
  · rw [roomy_iff, truncationMarker_size]
    omega
  · rw [hfits, Option.some.injEq] at h
    have hsize := congrArg String.utf8ByteSize h
    have hboom : "boom".utf8ByteSize = 4 := by decide
    rw [truncationMarker_size] at hsize
    omega

end Cuts

/-! ## Entries -/

/-- A budget of 40 bytes has room for the markers of any text in memory. -/
theorem roomy_of_le {s : String} {maxBytes : Nat} (hs : s.utf8ByteSize < 2 ^ 63) (h : 40 ≤ maxBytes) : Roomy s maxBytes := by
  have hdigits : (Nat.toDigits 10 s.utf8ByteSize).length ≤ 19 :=
    (Nat.length_toDigits_le_iff (by decide) (by decide)).mpr (lt_trans hs (by decide))
  rw [roomy_iff, truncationMarker_size]
  omega

/-- **What is stored of a failure** is within the caps. -/
theorem asErrorEntry_capped {f : Js.HandlerFailure} (hmessage : (String.ofList f.message).utf8ByteSize < 2 ^ 63)
    (hstack : ∀ stack ∈ f.stack, (String.ofList stack).utf8ByteSize < 2 ^ 63) : ∃ entry, asErrorEntry f = some entry ∧
      entry.message.utf8ByteSize ≤ maxErrorMessageBytes ∧ ∀ stack ∈ entry.stack, stack.utf8ByteSize ≤ maxErrorStackBytes := by
  obtain ⟨message, hm⟩ := truncateForStorage_total (String.ofList f.message) maxErrorMessageBytes
  have hmcap := truncateForStorage_le (roomy_of_le hmessage (by decide)) hm
  unfold asErrorEntry
  rw [hm]
  cases hf : f.stack with
  | none => exact ⟨_, rfl, hmcap, nofun⟩
  | some stack =>
    obtain ⟨text, ht⟩ := truncateForStorage_total (String.ofList stack) maxErrorStackBytes
    have htcap := truncateForStorage_le (roomy_of_le (hstack stack hf) (by decide)) ht
    simp only [Option.mapM_some, ht, Option.bind_eq_bind, Option.bind_some, Option.map_eq_map, Option.map_some]
    exact ⟨_, rfl, hmcap, fun t h => Option.some.inj h ▸ htcap⟩

end Eddyq.Runtime
