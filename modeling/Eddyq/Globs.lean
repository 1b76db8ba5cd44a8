import Eddyq.Lib.Globs
import Eddyq.Redis.Group
import Eddyq.Pg.Tables
import Mathlib.Data.List.TakeWhile

/-!
# Patterns of group rules

A pattern is a glob; Postgres translates it to `LIKE` and Redis to a Lua pattern over bytes. The Lua pattern is always the glob
over the bytes (`luaMatch_glob`); `LIKE` is the glob over the characters as long as the pattern has none of its own special
characters (`likeMatch_glob`). The two agree on plain patterns (`matchers_agree`).
-/

namespace Eddyq

open Eddyq.Lib

/-! ## Globs over an alphabet -/

/-- The items of a pattern, given its star and its question mark. -/
def globItems {α : Type} [DecidableEq α] (star mark : α) (p : List α) : List (GlobItem α) :=
  p.map fun c => if c = star then .many else if c = mark then .one else .lit c

/-! ## `LIKE` -/

namespace Pg

/-- A character that `LIKE` takes as it is, or that the translation replaces. -/
def PlainChar (c : Char) : Prop := c ≠ '%' ∧ c ≠ '_' ∧ c ≠ '\\'

instance : DecidablePred PlainChar := fun _ => inferInstanceAs (Decidable (_ ∧ _))

/-- Such a character stands for itself. -/
theorem likeMatch_plain {c : Char} (h : PlainChar c) (p : List Char) : (t : List Char) →
    likeMatch (c :: p) t = match t with
      | [] => .ok false
      | d :: t => if c = d then likeMatch p t else .ok false
  | [] => by
    unfold likeMatch
    split
    · next heq => cases heq
    · next heq => cases heq; exact absurd rfl h.1
    · rfl
    · next heq => cases heq
    · next heq => cases heq
    · next heq => cases heq
    · next heq => cases heq
  | d :: t => by
    rw [likeMatch.eq_def]
    split
    · next heq => cases heq
    · next heq => cases heq; exact absurd rfl h.1
    · next heq => cases heq
    · next heq _ => cases heq; exact absurd rfl h.2.1
    · next heq _ => cases heq; exact absurd rfl h.2.2
    · next heq _ => cases heq; exact absurd rfl h.2.2
    · next heq heq' => cases heq; cases heq'; rfl

theorem likeAny_ok_any {f : List Char → Except Error Bool} {g : List Char → Bool} (h : ∀ t, f t = .ok (g t)) :
    ∀ t, likeAny f t = .ok (t.tails.any g)
  | [] => by simp [likeAny, h]
  | c :: cs => by
    rw [likeAny, h]
    cases hg : g (c :: cs) with
    | true => simp [hg]; rfl
    | false =>
      simp only [List.tails_cons, List.any_cons, hg, Bool.false_or]
      exact likeAny_ok_any h cs

/-- **`LIKE` after the replacement** is the glob over the characters. -/
theorem likeMatch_glob : ∀ (p : List Char), (∀ c ∈ p, PlainChar c) → ∀ t : List Char,
    likeMatch (p.map (fun c => if c = '*' then '%' else if c = '?' then '_' else c)) t =
      .ok (globMatch (globItems '*' '?' p) t)
  | [], _, t => rfl
  | c :: p, h, t => by
    have ih := likeMatch_glob p fun c hc => h c (List.mem_cons_of_mem _ hc)
    obtain ⟨hpercent, hunder, hback⟩ := h c List.mem_cons_self
    by_cases hstar : c = '*'
    · subst hstar
      exact likeAny_ok_any ih t
    · by_cases hmark : c = '?'
      · subst hmark
        cases t with
        | nil => rfl
        | cons d t => exact ih t
      · rw [List.map_cons, if_neg hstar, if_neg hmark, likeMatch_plain ⟨hpercent, hunder, hback⟩, globItems, List.map_cons,
          if_neg hstar, if_neg hmark]
        cases t with
        | nil => rfl
        | cons d t =>
          dsimp only
          by_cases hcd : c = d
          · simp only [hcd, if_true, globMatch, decide_true, Bool.true_and]
            exact ih t
          · simp [globMatch, hcd]

end Pg

namespace Redis

/-- What the loop of `ByteArray.toList` has still to read. -/
theorem toList_loop (b : ByteArray) : ∀ (n i : Nat) (r : List UInt8), b.size - i = n →
    ByteArray.toList.loop b i r = r.reverse ++ b.data.toList.drop i
  | 0, i, r, hn => by
    have hi : ¬ i < b.size := by omega
    have hnil : b.data.toList.drop i = [] := List.drop_eq_nil_iff.mpr (not_lt.mp hi)
    rw [ByteArray.toList.loop, if_neg hi, hnil, List.append_nil]
  | n + 1, i, r, hn => by
    have hi : i < b.size := by omega
    have hlen : i < b.data.toList.length := hi
    have hget : b.get! i = b.data.toList[i] := by
      rw [ByteArray.get!, getElem!_pos b.data i hi, Array.getElem_toList]
    rw [ByteArray.toList.loop, if_pos hi, toList_loop b n (i + 1) _ (by omega), List.drop_eq_getElem_cons hlen, hget,
      List.reverse_cons, List.append_assoc]
    rfl

/-- The bytes of a text are those of its characters. -/
theorem bytes_eq (s : String) : bytes s = s.toList.flatMap String.utf8EncodeChar := by
  have hlist : bytes s = s.toByteArray.data.toList := by
    rw [bytes, String.toUTF8_eq_toByteArray, ByteArray.toList, toList_loop _ _ 0 [] rfl]
    rfl
  rw [hlist, ← String.utf8Encode_toList, List.utf8Encode, List.toList_data_toByteArray]

theorem bytes_append (s t : String) : bytes (s ++ t) = bytes s ++ bytes t := by
  rw [bytes_eq, bytes_eq, bytes_eq, String.toList_append, List.flatMap_append]

/-- A text is known by its bytes. -/
theorem bytes_injective : Function.Injective bytes := by
  intro s t h
  rw [bytes_eq, bytes_eq] at h
  rw [← String.toByteArray_inj, ← String.utf8Encode_toList, ← String.utf8Encode_toList, List.utf8Encode, List.utf8Encode, h]

/-! ## Lua patterns -/

/-- A byte that is no quantifier. -/
def Unquantified (b : UInt8) : Prop := b ≠ '*'.toUInt8 ∧ b ≠ '-'.toUInt8 ∧ b ≠ '+'.toUInt8 ∧ b ≠ '?'.toUInt8

theorem luaMagic_eq (c : UInt8) : luaMagic c = [94, 36, 40, 41, 37, 46, 91, 93, 43, 45].contains c := by
  have hmagic : bytes "^$()%.[]+-" = [94, 36, 40, 41, 37, 46, 91, 93, 43, 45] := by
    rw [bytes_eq]
    decide
  rw [luaMagic, hmagic]

theorem not_luaMagic {c : UInt8} (h : luaMagic c = false) :
    c ≠ '%'.toUInt8 ∧ c ≠ '.'.toUInt8 ∧ c ≠ '-'.toUInt8 ∧ c ≠ '+'.toUInt8 := by
  rw [luaMagic_eq] at h
  refine ⟨?_, ?_, ?_, ?_⟩ <;> rintro rfl <;> exact absurd h (by decide)

/-- What `glob_to_pattern` puts behind an item is no quantifier. -/
theorem globBody_head (g : List UInt8) : ∃ b bs, globBody g ++ ['$'.toUInt8] = b :: bs ∧ Unquantified b := by
  cases g with
  | nil => exact ⟨'$'.toUInt8, [], rfl, by unfold Unquantified; decide⟩
  | cons c g =>
    unfold globBody
    split
    · exact ⟨_, _, rfl, by unfold Unquantified; decide⟩
    · next hstar =>
      split
      · exact ⟨_, _, rfl, by unfold Unquantified; decide⟩
      · next hmark =>
        split
        · exact ⟨_, _, rfl, by unfold Unquantified; decide⟩
        · next hmagic =>
          obtain ⟨_, _, hminus, hplus⟩ := not_luaMagic (Bool.eq_false_of_not_eq_true hmagic)
          exact ⟨c, _, rfl, hstar, hminus, hplus, hmark⟩

section Step

variable {n : Nat} {s p : List UInt8} {t : UInt8 → Bool}

/-- An item without a quantifier takes one byte. -/
theorem luaDoMatch_item {b : UInt8} {bs : List UInt8} (hitem : luaItem p = some (t, b :: bs)) (hp : p ≠ ['$'.toUInt8])
    (hb : Unquantified b) : luaDoMatch (n + 1) s p =
      match s with
      | [] => false
      | c :: cs => t c && luaDoMatch n cs (b :: bs) := by
  obtain ⟨hstar, hminus, hplus, hmark⟩ := hb
  have hne : p ≠ [] := by
    rintro rfl
    cases hitem
  rw [luaDoMatch, if_neg hne, if_neg hp, hitem]
  cases s <;> simp [hstar, hminus, hplus, hmark]

/-- An item with a star takes any number. -/
theorem luaDoMatch_star {q : List UInt8} (hitem : luaItem p = some (t, '*'.toUInt8 :: q)) (hp : p ≠ ['$'.toUInt8]) :
    luaDoMatch (n + 1) s p =
      (List.range ((s.takeWhile t).length + 1)).any (fun i => luaDoMatch n (s.drop i) q) := by
  have hne : p ≠ [] := by
    rintro rfl
    cases hitem
  rw [luaDoMatch, if_neg hne, if_neg hp, hitem]
  simp

end Step

/-- The pattern of a glob. -/
def globTail (g : List UInt8) : List UInt8 := globBody g ++ ['$'.toUInt8]

/-- The bytes of a glob as items. -/
def byteItems (g : List UInt8) : List (GlobItem UInt8) := globItems '*'.toUInt8 '?'.toUInt8 g

/-- What a byte is translated to, and the item that it is. -/
inductive Translates (c : UInt8) : List UInt8 → GlobItem UInt8 → Prop
  | many : Translates c ['.'.toUInt8, '*'.toUInt8] .many
  | one : Translates c ['.'.toUInt8] .one
  | magic (escaped : luaMagic c = true) : Translates c ['%'.toUInt8, c] (.lit c)
  | plain (itself : luaMagic c = false) : Translates c [c] (.lit c)

theorem Translates.ne_nil {c : UInt8} {front : List UInt8} {i : GlobItem UInt8} (h : Translates c front i) : front ≠ [] := by
  cases h <;> exact List.cons_ne_nil _ _

/-- **The translation** goes byte by byte. -/
theorem globBody_cons (c : UInt8) (g : List UInt8) : ∃ front i, Translates c front i ∧
    globBody (c :: g) = front ++ globBody g ∧ byteItems (c :: g) = i :: byteItems g := by
  rw [globBody, byteItems, globItems, List.map_cons]
  by_cases hstar : c = '*'.toUInt8
  · rw [if_pos hstar, if_pos hstar]
    exact ⟨_, _, .many, rfl, rfl⟩
  rw [if_neg hstar, if_neg hstar]
  by_cases hmark : c = '?'.toUInt8
  · rw [if_pos hmark, if_pos hmark]
    exact ⟨_, _, .one, rfl, rfl⟩
  rw [if_neg hmark, if_neg hmark]
  cases hmagic : luaMagic c with
  | true => exact ⟨_, _, .magic hmagic, rfl, rfl⟩
  | false => exact ⟨_, _, .plain hmagic, rfl, rfl⟩

/-- What is left of a glob has a shorter pattern. -/
theorem length_globBody_lt (c : UInt8) (g : List UInt8) : (globBody g).length < (globBody (c :: g)).length := by
  obtain ⟨front, i, htranslates, hbody, -⟩ := globBody_cons c g
  have hpos := List.length_pos_iff.mpr htranslates.ne_nil
  rw [hbody, List.length_append]
  omega

/-- An item that takes one byte, and then the rest of the glob. -/
theorem luaDoMatch_one {n : Nat} {s front g : List UInt8} {t : UInt8 → Bool} {i : GlobItem UInt8} (hfront : front ≠ [])
    (hitem : luaItem (front ++ globTail g) = some (t, globTail g))
    (hcons : ∀ d ds, globMatch (i :: byteItems g) (d :: ds) = (t d && globMatch (byteItems g) ds))
    (hnil : globMatch (i :: byteItems g) [] = false)
    (ih : ∀ ds, luaDoMatch n ds (globTail g) = globMatch (byteItems g) ds) :
    luaDoMatch (n + 1) s (front ++ globTail g) = globMatch (i :: byteItems g) s := by
  obtain ⟨b, bs, hrest, hb⟩ := globBody_head g
  have hp : front ++ globTail g ≠ ['$'.toUInt8] := by
    intro heq
    have hlen := congrArg List.length heq
    have hpos := List.length_pos_iff.mpr hfront
    simp only [globTail, List.length_append, List.length_cons, List.length_nil] at hlen
    omega
  have hitem' : luaItem (front ++ globTail g) = some (t, b :: bs) := by
    rw [hitem, globTail, hrest]
  rw [luaDoMatch_item hitem' hp hb]
  cases s with
  | nil => exact hnil.symm
  | cons d ds =>
    rw [hcons, ← ih ds, globTail, hrest]

/-- A star, and then the rest of the glob. -/
theorem luaDoMatch_many {n : Nat} {s g : List UInt8}
    (ih : ∀ ds, luaDoMatch n ds (globTail g) = globMatch (byteItems g) ds) :
    luaDoMatch (n + 1) s ('.'.toUInt8 :: '*'.toUInt8 :: globTail g) = globMatch (.many :: byteItems g) s := by
  have hitem : luaItem ('.'.toUInt8 :: '*'.toUInt8 :: globTail g) = some (fun _ => true, '*'.toUInt8 :: globTail g) := rfl
  have hall : s.takeWhile (fun _ => true) = s := List.takeWhile_eq_self_iff.mpr fun _ _ => rfl
  rw [luaDoMatch_star hitem nofun, hall, globMatch, ← any_drop_eq_any_tails]
  simp only [ih]

theorem globMatch_lit (c d : UInt8) (g : List (GlobItem UInt8)) (ds : List UInt8) :
    globMatch (.lit c :: g) (d :: ds) = (d == c && globMatch g ds) := by
  rw [globMatch, Bool.beq_eq_decide_eq]
  simp [eq_comm]

/-- A byte that is no magic character is an item by itself. -/
theorem luaItem_plain {c : UInt8} (h : luaMagic c = false) (q : List UInt8) : luaItem (c :: q) = some ((· == c), q) := by
  obtain ⟨hpercent, hdot, -, -⟩ := not_luaMagic h
  rw [luaItem.eq_def]
  dsimp only
  rw [if_neg hpercent, if_neg hdot]

/-- The matcher on a translated glob. -/
theorem luaDoMatch_glob (g : List UInt8) : ∀ {n : Nat} (s : List UInt8), (globBody g).length < n →
    luaDoMatch n s (globTail g) = globMatch (byteItems g) s := by
  induction g with
  | nil =>
    intro n s hn
    cases n with
    | zero => cases hn
    | succ n => rfl
  | cons c g ih =>
    intro n s hn
    cases n with
    | zero => cases hn
    | succ n =>
      have ih := fun ds => ih ds (lt_of_lt_of_le (length_globBody_lt c g) (Nat.le_of_lt_succ hn))
      obtain ⟨front, i, htranslates, hbody, hitems⟩ := globBody_cons c g
      rw [globTail, hbody, List.append_assoc, hitems]
      cases htranslates with
      | many => exact luaDoMatch_many ih
      | one => exact luaDoMatch_one (List.cons_ne_nil _ _) rfl (fun _ _ => rfl) rfl ih
      | magic => exact luaDoMatch_one (List.cons_ne_nil _ _) rfl (fun d ds => globMatch_lit c d _ ds) rfl ih
      | plain hplain =>
        exact luaDoMatch_one (List.cons_ne_nil _ _) (luaItem_plain hplain _) (fun d ds => globMatch_lit c d _ ds) rfl ih

/-- **A translated glob** matches what the glob over the bytes matches. -/
theorem luaMatch_glob (g s : List UInt8) : luaMatch s (globToPattern g) = globMatch (byteItems g) s := by
  have hlen : (globBody g).length < (globTail g).length + 1 := by
    rw [globTail, List.length_append]
    omega
  exact luaDoMatch_glob g s hlen

end Redis

/-! ## Plain patterns -/

/-- One byte in UTF-8. -/
def Ascii (c : Char) : Prop := c.val ≤ 127

instance : DecidablePred Ascii := fun c => inferInstanceAs (Decidable (c.val ≤ 127))

theorem Ascii.toNat_lt {c : Char} (h : Ascii c) : c.val.toNat < 128 := by
  have := UInt32.le_iff_toNat_le.mp h
  simp only [UInt32.reduceToNat] at this
  omega

theorem Ascii.toUInt8_toNat {c : Char} (h : Ascii c) : c.toUInt8.toNat = c.val.toNat := by
  have hlt := h.toNat_lt
  rw [Char.toUInt8, UInt32.toNat_toUInt8, Nat.mod_eq_of_lt (by omega)]

theorem Ascii.eq {a c : Char} (ha : Ascii a) (hc : Ascii c) (h : a.toUInt8 = c.toUInt8) : a = c := by
  have hval : a.val.toNat = c.val.toNat := by
    rw [← ha.toUInt8_toNat, ← hc.toUInt8_toNat, h]
  exact Char.ext (UInt32.toNat_inj.mp hval)

/-- The bytes of other characters are large. -/
theorem utf8EncodeChar_large {c : Char} (h : ¬ Ascii c) : ∀ b ∈ String.utf8EncodeChar c, 128 ≤ b.toNat := by
  have hv : ¬ c.val.toNat ≤ 127 := fun hle => h (UInt32.le_iff_toNat_le.mpr hle)
  intro b hb
  unfold String.utf8EncodeChar at hb
  simp only [hv, if_false] at hb
  split at hb
  · simp only [List.mem_cons, List.not_mem_nil, or_false] at hb
    rcases hb with rfl | rfl <;> simp <;> omega
  · split at hb
    · simp only [List.mem_cons, List.not_mem_nil, or_false] at hb
      rcases hb with rfl | rfl | rfl <;> simp <;> omega
    · simp only [List.mem_cons, List.not_mem_nil, or_false] at hb
      rcases hb with rfl | rfl | rfl | rfl <;> simp <;> omega

/-- UTF-8. -/
theorem utf8Encoding : Encoding Ascii String.utf8EncodeChar Char.toUInt8 where
  single := fun _ ha => String.utf8EncodeChar_eq_singleton (Char.utf8Size_eq_one_iff.mpr ha)
  own := by
    intro a c ha hmem
    by_cases hc : Ascii c
    · rw [String.utf8EncodeChar_eq_singleton (Char.utf8Size_eq_one_iff.mpr hc)] at hmem
      exact (ha.eq hc (List.mem_singleton.mp hmem)).symm
    · have hlarge := utf8EncodeChar_large hc _ hmem
      have hsmall := ha.toNat_lt
      rw [ha.toUInt8_toNat] at hlarge
      omega
  nonempty := fun _ => String.utf8EncodeChar_ne_nil

/-- The bytes of plain text. -/
theorem bytes_ascii {s : String} (h : ∀ c ∈ s.toList, Ascii c) : Redis.bytes s = s.toList.map Char.toUInt8 := by
  rw [Redis.bytes_eq]
  calc s.toList.flatMap String.utf8EncodeChar
      = s.toList.flatMap (fun c => [c.toUInt8]) := List.flatMap_congr fun c hc => utf8Encoding.single c (h c hc)
    _ = s.toList.map Char.toUInt8 := by rw [← List.map_eq_flatMap]

/-- The items of its bytes are those of its characters. -/
theorem byteItems_ascii : ∀ {p : List Char}, (∀ c ∈ p, Ascii c) →
    Redis.byteItems (p.map Char.toUInt8) = (globItems '*' '?' p).map (GlobItem.map Char.toUInt8)
  | [], _ => rfl
  | c :: p, h => by
    have hc : Ascii c := h c List.mem_cons_self
    have hstar : c.toUInt8 = '*'.toUInt8 ↔ c = '*' := ⟨hc.eq (by decide), fun heq => heq ▸ rfl⟩
    have hmark : c.toUInt8 = '?'.toUInt8 ↔ c = '?' := ⟨hc.eq (by decide), fun heq => heq ▸ rfl⟩
    have ih := byteItems_ascii fun d hd => h d (List.mem_cons_of_mem _ hd)
    unfold Redis.byteItems globItems at ih ⊢
    simp only [List.map_cons, hstar, hmark, ih]
    split
    · rfl
    · split <;> rfl

/-- The items of a plain pattern. -/
theorem globItems_over {p : List Char} (h : ∀ c ∈ p, Ascii c) : ∀ i ∈ globItems '*' '?' p, i.Over Ascii := by
  intro i hi a ha
  obtain ⟨c, hc, rfl⟩ := List.mem_map.mp hi
  split at ha
  · cases ha
  · split at ha
    · cases ha
    · cases ha
      exact h a hc

theorem globItems_ne_one {p : List Char} (h : '?' ∉ p) : ∀ i ∈ globItems '*' '?' p, i ≠ .one := by
  intro i hi
  obtain ⟨c, hc, rfl⟩ := List.mem_map.mp hi
  have hmark : c ≠ '?' := fun heq => h (heq ▸ hc)
  rw [if_neg hmark]
  split <;> exact nofun

/-- **The two matchers agree** on ASCII patterns without special characters of `LIKE`, as long as no `?` meets a character of
more than one byte. -/
theorem matchers_agree {pattern key : String} (hp : ∀ c ∈ pattern.toList, Ascii c ∧ Pg.PlainChar c)
    (hkey : '?' ∉ pattern.toList ∨ ∀ c ∈ key.toList, Ascii c) : Pg.likeMatch (Pg.likePattern pattern) key.toList =
      .ok (Redis.luaMatch (Redis.bytes key) (Redis.globToPattern (Redis.bytes pattern))) := by
  have hascii : ∀ c ∈ pattern.toList, Ascii c := fun c hc => (hp c hc).1
  have hover := globItems_over hascii
  rw [Pg.likePattern, Pg.likeMatch_glob _ fun c hc => (hp c hc).2, Redis.luaMatch_glob, bytes_ascii hascii,
    byteItems_ascii hascii]
  congr 1
  rcases hkey with hmark | hkey
  · rw [Redis.bytes_eq]
    exact (globMatch_encode utf8Encoding (fun i hi => ⟨hover i hi, globItems_ne_one hmark i hi⟩) key.toList).symm
  · rw [bytes_ascii hkey]
    exact (globMatch_map utf8Encoding hover hkey).symm

end Eddyq
