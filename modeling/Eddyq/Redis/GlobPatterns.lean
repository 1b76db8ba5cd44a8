import Eddyq.Globs
import Eddyq.Lib.LuaPatterns

/-!
# Globs under the full matcher of Lua

What `glob_to_pattern` makes of a glob is read here by `string.match` itself, with its classes, sets, captures and errors. Every
item of the translation starts an item of the pattern (`doMatch_one`, `doMatch_many`), and none is followed by a quantifier of
its own, so that the matcher decides the glob (`doMatch_glob`) and the match is the language of the glob
(`globToPattern_language`).
-/

namespace Eddyq.Redis

open Eddyq.Lib Eddyq.Lib.LuaPattern

/-! ## Magic characters -/

/-- The pattern by which `glob_to_pattern` finds what it has to escape. -/
def magicSet : List UInt8 := bytes "[%^%$%(%)%%%.%[%]%+%-]"

/-- It finds the magic characters. -/
theorem find_magicSet (c : UInt8) : stringMatch [c] magicSet = .ok (luaMagic c) := by
  have hset : magicSet = [91, 37, 94, 37, 36, 37, 40, 37, 41, 37, 37, 37, 46, 37, 91, 37, 93, 37, 43, 37, 45, 93] := by
    rw [magicSet, bytes_eq]
    decide
  have hall : ∀ n : Fin 256, stringMatch [UInt8.ofNat n]
      [91, 37, 94, 37, 36, 37, 40, 37, 41, 37, 37, 37, 46, 37, 91, 37, 93, 37, 43, 37, 45, 93] =
        .ok ([94, 36, 40, 41, 37, 46, 91, 93, 43, 45].contains (UInt8.ofNat n)) := by
    decide +kernel
  have hc : UInt8.ofNat c.toNat = c := UInt8.ofNat_toNat
  rw [hset, luaMagic_eq]
  have h := hall ⟨c.toNat, c.toNat_lt⟩
  rwa [hc] at h

/-- A magic character stands for itself behind an escape. -/
theorem matchClass_magic {c : UInt8} (h : luaMagic c = true) (d : UInt8) : matchClass d c = decide (c = d) := by
  rw [luaMagic_eq, List.contains_iff_mem] at h
  simp only [List.mem_cons, List.not_mem_nil, or_false] at h
  rcases h with rfl | rfl | rfl | rfl | rfl | rfl | rfl | rfl | rfl | rfl <;> rfl

/-- It is no letter and no digit. -/
theorem startsItem_escaped {c : UInt8} (h : luaMagic c = true) (q : List UInt8) : StartsItem (byte '%') (c :: q) := by
  refine ⟨by decide, by decide, fun heq => absurd heq.1 (by decide), fun _ => ⟨c, q, rfl, ?_⟩⟩
  rw [luaMagic_eq, List.contains_iff_mem] at h
  simp only [List.mem_cons, List.not_mem_nil, or_false] at h
  rcases h with rfl | rfl | rfl | rfl | rfl | rfl | rfl | rfl | rfl | rfl <;> decide

/-- Any other byte than a dot is an item that stands for itself. -/
theorem startsItem_literal {c : UInt8} (h : luaMagic c = false) (q : List UInt8) : StartsItem c q := by
  rw [luaMagic_eq] at h
  refine ⟨?_, ?_, fun heq => ?_, fun heq => ?_⟩
  · rintro rfl
    exact absurd h (by decide)
  · rintro rfl
    exact absurd h (by decide)
  · rw [heq.1] at h
    exact absurd h (by decide)
  · rw [heq] at h
    exact absurd h (by decide)

/-- What it matches, and what stands behind it. -/
theorem literal_item {c : UInt8} (h : luaMagic c = false) (q : List UInt8) :
    classEnd (c :: q) = .ok q ∧ ∀ d ep, singleMatch d (c :: q) ep = decide (c = d) := by
  rw [luaMagic_eq] at h
  have hne : ∀ b, [94, 36, 40, 41, 37, 46, 91, 93, 43, 45].contains b = true → c ≠ b := by
    rintro b hb rfl
    exact absurd h (by rw [hb]; decide)
  have hpercent : c ≠ byte '%' := hne _ (by decide)
  have hdot : c ≠ byte '.' := hne _ (by decide)
  have hbracket : c ≠ byte '[' := hne _ (by decide)
  constructor
  · rw [classEnd.eq_def]
    dsimp only
    rw [if_neg hpercent, if_neg hbracket]
  · intro d ep
    rw [singleMatch, if_neg hdot, if_neg hpercent, if_neg hbracket]

theorem startsItem_dot (q : List UInt8) : StartsItem (byte '.') q :=
  ⟨by decide, by decide, fun heq => absurd heq.1 (by decide), fun heq => absurd heq (by decide)⟩

/-! ## Matching -/

/-- A match without captures to the end of the subject, if there is one. -/
def whole (b : Bool) : Result := .ok (if b then some ([], []) else none)

section Step

variable {src s g : List UInt8} {n : Nat}

/-- An item that takes one byte, and then the rest of the glob. -/
theorem doMatch_one {c : UInt8} {q : List UInt8} {t : UInt8 → Bool} {i : GlobItem UInt8} (hstart : StartsItem c q)
    (hend : classEnd (c :: q) = .ok (globTail g)) (ht : ∀ d, singleMatch d (c :: q) (globTail g) = t d)
    (hcons : ∀ d ds, globMatch (i :: byteItems g) (d :: ds) = (t d && globMatch (byteItems g) ds))
    (hnil : globMatch (i :: byteItems g) [] = false)
    (ih : ∀ ds, doMatch src n ds (globTail g) [] = whole (globMatch (byteItems g) ds)) :
    doMatch src (n + 1) s (c :: q) [] = whole (globMatch (i :: byteItems g) s) := by
  obtain ⟨b, bs, hrest, hstar, hminus, hplus, hmark⟩ := globBody_head g
  rw [globTail, hrest] at hend ht ih
  rw [doMatch_item hstart, matchItem_single hend ⟨hmark, hstar, hplus, hminus⟩]
  cases s with
  | nil =>
    rw [hnil]
    rfl
  | cons d ds =>
    dsimp only
    rw [ht, hcons]
    cases t d with
    | true =>
      rw [if_pos rfl, ih, Bool.true_and]
    | false => rfl

/-- A star, and then the rest of the glob. -/
theorem doMatch_many (ih : ∀ ds, doMatch src n ds (globTail g) [] = whole (globMatch (byteItems g) ds)) :
    doMatch src (n + 1) s (byte '.' :: byte '*' :: globTail g) [] = whole (globMatch (.many :: byteItems g) s) := by
  have hend : classEnd (byte '.' :: byte '*' :: globTail g) = .ok (byte '*' :: globTail g) := rfl
  have hall : (s.takeWhile fun c => singleMatch c (byte '.' :: byte '*' :: globTail g) (byte '*' :: globTail g)) = s :=
    List.takeWhile_eq_self_iff.mpr fun _ _ => rfl
  rw [doMatch_item (startsItem_dot _), matchItem_star hend, hall, firstMatch_decided fun i _ => ih (s.drop i), List.any_reverse,
    any_drop_eq_any_tails]
  rfl

end Step

/-- **The matcher on a translated glob**, at every place of the subject. -/
theorem doMatch_glob (src g : List UInt8) : ∀ {n : Nat} (s : List UInt8), (globBody g).length < n →
    doMatch src n s (globTail g) [] = whole (globMatch (byteItems g) s) := by
  induction g with
  | nil =>
    intro n s hn
    cases n with
    | zero => cases hn
    | succ n => cases s <;> rfl
  | cons c g ih =>
    intro n s hn
    cases n with
    | zero => cases hn
    | succ n =>
      have ih := fun ds => ih ds (lt_of_lt_of_le (length_globBody_lt c g) (Nat.le_of_lt_succ hn))
      obtain ⟨front, i, htranslates, hbody, hitems⟩ := globBody_cons c g
      rw [globTail, hbody, List.append_assoc, hitems]
      cases htranslates with
      | many => exact doMatch_many ih
      | one => exact doMatch_one (startsItem_dot _) rfl (fun _ => rfl) (fun _ _ => rfl) rfl ih
      | magic hmagic =>
        exact doMatch_one (startsItem_escaped hmagic _) rfl (matchClass_magic hmagic) (fun _ _ => rfl) rfl ih
      | plain hplain =>
        obtain ⟨hend, hmatch⟩ := literal_item hplain (globTail g)
        exact doMatch_one (startsItem_literal hplain _) hend (fun d => hmatch d _) (fun _ _ => rfl) rfl ih

/-! ## The translation -/

/-- Without a zero byte in the glob there is none in its pattern. -/
theorem globTail_ne_zero {g : List UInt8} (h : 0 ∉ g) : ∀ b ∈ globTail g, b ≠ 0 := by
  induction g with
  | nil =>
    intro b hb
    rw [List.mem_singleton.mp hb]
    decide
  | cons c g ih =>
    have hc : c ≠ 0 := fun heq => h (heq ▸ List.mem_cons_self)
    have ih := ih fun hg => h (List.mem_cons_of_mem _ hg)
    obtain ⟨front, i, htranslates, hbody, -⟩ := globBody_cons c g
    have hdot : '.'.toUInt8 ≠ 0 := by decide
    have hstar : '*'.toUInt8 ≠ 0 := by decide
    have hpercent : '%'.toUInt8 ≠ 0 := by decide
    have hfront : ∀ b ∈ front, b ≠ 0 := by
      intro b hb
      cases htranslates with
      | many =>
        rcases List.mem_pair.mp hb with rfl | rfl
        exacts [hdot, hstar]
      | one => exact List.mem_singleton.mp hb ▸ hdot
      | magic =>
        rcases List.mem_pair.mp hb with rfl | rfl
        exacts [hpercent, hc]
      | plain => exact List.mem_singleton.mp hb ▸ hc
    intro b hb
    rw [globTail, hbody, List.append_assoc] at hb
    exact (List.mem_append.mp hb).elim (hfront b) (ih b)

/-- `string.match` decides the glob. -/
theorem stringMatch_glob {glob : List UInt8} (h : 0 ∉ glob) (key : List UInt8) :
    stringMatch key (globToPattern glob) = .ok (globMatch (byteItems glob) key) := by
  have hzero : (globToPattern glob).takeWhile (· ≠ 0) = globToPattern glob := by
    refine List.takeWhile_eq_self_iff.mpr fun b hb => decide_eq_true ?_
    rcases List.mem_cons.mp hb with rfl | hb
    · decide
    · exact globTail_ne_zero h b hb
  have hlen : (globBody glob).length < (globTail glob).length + 1 := by
    rw [globTail, List.length_append]
    omega
  have htail : globToPattern glob = byte '^' :: globTail glob := rfl
  rw [stringMatch, hzero, htail]
  dsimp only
  rw [if_pos rfl, doMatch_glob key glob key hlen]
  cases globMatch (byteItems glob) key <;> rfl

/-- On such patterns the matcher of `best_rule` is `string.match`. -/
theorem luaMatch_eq_stringMatch {glob : List UInt8} (h : 0 ∉ glob) (key : List UInt8) :
    stringMatch key (globToPattern glob) = .ok (luaMatch key (globToPattern glob)) := by
  rw [stringMatch_glob h, luaMatch_glob]

/-- **A glob without zero bytes** is never a malformed pattern, and matches exactly the keys of its language. -/
theorem globToPattern_language {glob : List UInt8} (h : 0 ∉ glob) (key : List UInt8) :
    (stringMatch key (globToPattern glob) = .ok true ↔ key ∈ globLanguage (byteItems glob)) ∧
      (stringMatch key (globToPattern glob) = .ok false ↔ key ∉ globLanguage (byteItems glob)) := by
  rw [stringMatch_glob h, ← globMatch_iff]
  cases globMatch (byteItems glob) key <;> simp

theorem globToPattern_language_dots : stringMatch [46, 97] (globToPattern [46, 42]) = .ok true ↔
    [46, 97] ∈ globLanguage (byteItems [46, 42]) :=
  (globToPattern_language (by decide) [46, 97]).1

end Eddyq.Redis
