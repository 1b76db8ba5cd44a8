import Mathlib.Data.List.Basic
import Mathlib.Data.List.Chain
import Mathlib.Tactic.NormNum

/-!
# JSON text

A value (`Value`) is written without blanks (`print`), and read by a recursive descent with a limit on the nesting
(`parseValue`). Reading what was written gives the value back, and leaves what follows it (`reads`), if its numbers
are number tokens and it is not nested too deep. The budget of steps only has to cover the text.

Strings are lists of characters. What writes text may have strings of UTF-16 instead, which have surrogates without a
partner (`CodePoint`); they can be written (`quotePoints`), but no reader accepts them (`parseString_points`), nor an object
that has one among its values (`fromStr_refused`).
-/

namespace Eddyq.Lib.Json

/-! ## Strings -/

/-- A digit of `\uXXXX`. -/
def hexVal (c : Char) : Option Nat :=
  if c.isDigit then some (c.toNat - 48)
  else if 'a' ≤ c ∧ c ≤ 'f' then some (c.toNat - 87)
  else if 'A' ≤ c ∧ c ≤ 'F' then some (c.toNat - 55)
  else none

/-- The four digits of `\uXXXX`. -/
def parseHex : List Char → Option (Nat × List Char)
  | a :: b :: c :: d :: r => do
    let a ← hexVal a
    let b ← hexVal b
    let c ← hexVal c
    let d ← hexVal d
    some (a * 4096 + b * 256 + c * 16 + d, r)
  | _ => none

/-- The escapes of one character. -/
def simpleEscape (c : Char) : Option Char :=
  if c = '"' ∨ c = '\\' ∨ c = '/' then some c
  else if c = 'b' then some (Char.ofNat 8)
  else if c = 'f' then some (Char.ofNat 12)
  else if c = 'n' then some '\n'
  else if c = 'r' then some '\r'
  else if c = 't' then some '\t'
  else none

/-- The second half of a pair of surrogates. -/
def partner (lead : Nat) : List Char → Option (Char × List Char)
  | '\\' :: 'u' :: r => (parseHex r).bind fun (m, r) =>
    if m < 0xDC00 ∨ 0xDFFF < m then none
    else some (Char.ofNat (0x10000 + (lead - 0xD800) * 0x400 + (m - 0xDC00)), r)
  | _ => none

/-- What follows a backslash. A surrogate has to come with its partner. -/
def parseEscape : List Char → Option (Char × List Char)
  | [] => none
  | e :: r =>
    if e = 'u' then
      match parseHex r with
      | none => none
      | some (n, r) =>
        if 0xDC00 ≤ n ∧ n ≤ 0xDFFF then none
        else if n < 0xD800 ∨ 0xDBFF < n then some (Char.ofNat n, r)
        else partner n r
    else (simpleEscape e).map (·, r)

/-- The rest of a string after its opening quote. -/
def parseString : Nat → List Char → Option (List Char × List Char)
  | 0, _ => none
  | _ + 1, [] => none
  | n + 1, c :: r =>
    if c = '"' then some ([], r)
    else if c = '\\' then (parseEscape r).bind fun (e, r) => (parseString n r).map fun (s, r) => (e :: s, r)
    else if c.toNat < 0x20 then none
    else (parseString n r).map fun (s, r) => (c :: s, r)

/-- A character inside a string. -/
def escape (c : Char) : List Char :=
  if c = '"' then ['\\', '"']
  else if c = '\\' then ['\\', '\\']
  else if c = Char.ofNat 8 then ['\\', 'b']
  else if c = Char.ofNat 12 then ['\\', 'f']
  else if c = '\n' then ['\\', 'n']
  else if c = '\r' then ['\\', 'r']
  else if c = '\t' then ['\\', 't']
  else if c.toNat < 0x20 then ['\\', 'u', '0', '0', Nat.digitChar (c.toNat / 16), Nat.digitChar (c.toNat % 16)]
  else [c]

/-- A string in quotes. -/
def quote (s : List Char) : List Char := '"' :: (s.flatMap escape ++ ['"'])

theorem hexVal_digitChar : ∀ d < 16, hexVal (Nat.digitChar d) = some d := by decide

theorem parseEscape_u (r : List Char) : parseEscape ('u' :: r) = match parseHex r with
    | none => none
    | some (n, r) =>
      if 0xDC00 ≤ n ∧ n ≤ 0xDFFF then none
      else if n < 0xD800 ∨ 0xDBFF < n then some (Char.ofNat n, r)
      else partner n r := rfl

theorem parseString_backslash (n : Nat) (r : List Char) : parseString (n + 1) ('\\' :: r) =
    (parseEscape r).bind fun (e, r) => (parseString n r).map fun (s, r) => (e :: s, r) := rfl

/-- The four digits of a number are read back. -/
theorem parseHex_digits {n : Nat} (h : n < 65536) (r : List Char) :
    parseHex (Nat.digitChar (n / 4096) :: Nat.digitChar (n / 256 % 16) :: Nat.digitChar (n / 16 % 16) ::
      Nat.digitChar (n % 16) :: r) = some (n, r) := by
  have hval : n / 4096 * 4096 + n / 256 % 16 * 256 + n / 16 % 16 * 16 + n % 16 = n := by omega
  simp only [parseHex, hexVal_digitChar _ (show n / 4096 < 16 by omega),
    hexVal_digitChar _ (show n / 256 % 16 < 16 by omega), hexVal_digitChar _ (show n / 16 % 16 < 16 by omega),
    hexVal_digitChar _ (show n % 16 < 16 by omega), Option.bind_eq_bind, Option.bind_some, hval]

/-- The escape of a control character. -/
theorem parseHex_ctrl {n : Nat} (h : n < 0x20) (r : List Char) :
    parseHex ('0' :: '0' :: Nat.digitChar (n / 16) :: Nat.digitChar (n % 16) :: r) = some (n, r) := by
  have hhex := parseHex_digits (n := n) (by omega) r
  have hz : Nat.digitChar (n / 4096) = '0' := by rw [Nat.div_eq_of_lt (by omega)]; rfl
  have hz' : Nat.digitChar (n / 256 % 16) = '0' := by rw [Nat.div_eq_of_lt (by omega)]; rfl
  rwa [hz, hz', Nat.mod_eq_of_lt (show n / 16 < 16 by omega)] at hhex

/-- The escape of one character is read as the character. -/
theorem parseString_escape (n : Nat) (c : Char) (r : List Char) :
    parseString (n + 1) (escape c ++ r) = (parseString n r).map fun (s, r) => (c :: s, r) := by
  unfold escape
  split
  · next h => subst h; rfl
  split
  · next h => subst h; rfl
  split
  · next h => subst h; rfl
  split
  · next h => subst h; rfl
  split
  · next h => subst h; rfl
  split
  · next h => subst h; rfl
  split
  · next h => subst h; rfl
  split
  · next hctrl =>
    have hesc : parseEscape ('u' :: '0' :: '0' :: Nat.digitChar (c.toNat / 16) :: Nat.digitChar (c.toNat % 16) :: r) =
        some (c, r) := by
      rw [parseEscape_u, parseHex_ctrl hctrl]
      dsimp only
      rw [if_neg (by omega), if_pos (by omega), Char.ofNat_toNat]
    refine (parseString_backslash n _).trans ?_
    show (parseEscape ('u' :: '0' :: '0' :: Nat.digitChar (c.toNat / 16) :: Nat.digitChar (c.toNat % 16) :: r)).bind _ = _
    rw [hesc]
    rfl
  · next hq hb _ _ _ _ _ hctrl =>
    show parseString (n + 1) (c :: r) = _
    rw [parseString, if_neg hq, if_neg hb, if_neg hctrl]

/-- A quoted string is read back. -/
theorem parseString_quote : ∀ (s : List Char) (n : Nat) (r : List Char), s.length < n →
    parseString n (s.flatMap escape ++ '"' :: r) = some (s, r)
  | [], n + 1, r, _ => rfl
  | c :: s, n + 1, r, h => by
    rw [List.flatMap_cons, List.append_assoc, parseString_escape,
      parseString_quote s n r (by rw [List.length_cons] at h; omega)]
    rfl

/-! ## Strings of UTF-16 -/

/-- What a string of UTF-16 is made of: a character, or a surrogate without its partner. -/
inductive CodePoint
  | scalar (c : Char)
  | surrogate (n : Nat)
  deriving DecidableEq

/-- The text of a code point inside a string: a surrogate is always escaped. -/
def CodePoint.escape : CodePoint → List Char
  | .scalar c => Json.escape c
  | .surrogate n => ['\\', 'u', Nat.digitChar (n / 4096), Nat.digitChar (n / 256 % 16), Nat.digitChar (n / 16 % 16),
      Nat.digitChar (n % 16)]

/-- A string of UTF-16 in quotes. -/
def quotePoints (s : List CodePoint) : List Char := '"' :: (s.flatMap CodePoint.escape ++ ['"'])

/-- Two surrogates that are partners do not stand together. -/
def Apart : CodePoint → CodePoint → Prop
  | .surrogate m, .surrogate n => ¬ (m < 0xDC00 ∧ 0xDC00 ≤ n)
  | _, _ => True

/-- Surrogates are in their range and have no partners. -/
def Lone (s : List CodePoint) : Prop := (∀ n, .surrogate n ∈ s → 0xD800 ≤ n ∧ n ≤ 0xDFFF) ∧ s.IsChain Apart

/-- The first half of a pair. -/
def isLead (u : UInt16) : Bool := 0xD800 ≤ u.toNat && u.toNat ≤ 0xDBFF

/-- The second half. -/
def isTrail (u : UInt16) : Bool := 0xDC00 ≤ u.toNat && u.toNat ≤ 0xDFFF

/-- A unit that is not half of a pair. -/
def codePoint (u : UInt16) : CodePoint :=
  if isLead u || isTrail u then .surrogate u.toNat else .scalar (Char.ofNat u.toNat)

/-- The code points of a string of UTF-16. -/
def codePoints : List UInt16 → List CodePoint
  | [] => []
  | [u] => [codePoint u]
  | u :: v :: s =>
    if isLead u && isTrail v then
      .scalar (Char.ofNat (0x10000 + (u.toNat - 0xD800) * 0x400 + (v.toNat - 0xDC00))) :: codePoints s
    else codePoint u :: codePoints (v :: s)

theorem codePoint_range {u : UInt16} {n : Nat} (h : codePoint u = .surrogate n) :
    n = u.toNat ∧ 0xD800 ≤ n ∧ n ≤ 0xDFFF := by
  unfold codePoint at h
  split at h
  · next hsur =>
    cases h
    simp only [isLead, isTrail, Bool.or_eq_true, Bool.and_eq_true, decide_eq_true_eq] at hsur
    exact ⟨rfl, by omega⟩
  · cases h

/-- A string starts with its first unit or with a pair. -/
theorem head_codePoints {v : UInt16} {s : List UInt16} {n : Nat} (h : (codePoints (v :: s)).head? = some (.surrogate n)) :
    n = v.toNat := by
  cases s with
  | nil => exact (codePoint_range (Option.some.inj h)).1
  | cons w s =>
    unfold codePoints at h
    split at h
    · cases h
    · exact (codePoint_range (Option.some.inj h)).1

/-- **Pairs are made** wherever they can be. -/
theorem lone_codePoints (s : List UInt16) : Lone (codePoints s) := by
  fun_induction codePoints s with
  | case1 => exact ⟨nofun, .nil⟩
  | case2 u => exact ⟨fun n hn => (codePoint_range (List.mem_singleton.mp hn).symm).2, .singleton _⟩
  | case3 u v s hpair ih =>
    refine ⟨fun n hn => ih.1 n ((List.mem_cons.mp hn).resolve_left nofun), ?_⟩
    cases h : codePoints s with
    | nil => exact .singleton _
    | cons p ps => exact List.isChain_cons_cons.mpr ⟨trivial, h ▸ ih.2⟩
  | case4 u v s hpair ih =>
    refine ⟨fun n hn => ?_, ?_⟩
    · rcases List.mem_cons.mp hn with h | h
      · exact (codePoint_range h.symm).2
      · exact ih.1 n h
    · cases h : codePoints (v :: s) with
      | nil => exact .singleton _
      | cons p ps =>
        refine List.isChain_cons_cons.mpr ⟨?_, h ▸ ih.2⟩
        cases hu : codePoint u with
        | scalar c => trivial
        | surrogate m =>
          cases p with
          | scalar c => trivial
          | surrogate n =>
            obtain ⟨rfl, hm⟩ := codePoint_range hu
            obtain rfl : n = v.toNat := head_codePoints (by rw [h]; rfl)
            have hn := ih.1 v.toNat (h ▸ List.mem_cons_self)
            simp only [isLead, isTrail, Bool.and_eq_true, decide_eq_true_eq] at hpair
            show ¬ (_ ∧ _)
            omega

theorem quotePoints_scalar (s : List Char) : quotePoints (s.map .scalar) = quote s := by
  rw [quotePoints, quote, List.flatMap_map]
  rfl

/-- A character is no second half. -/
theorem partner_escape (lead : Nat) (c : Char) (r : List Char) : partner lead (Json.escape c ++ r) = none := by
  unfold Json.escape
  iterate 7
    split
    · rfl
  split
  · next hctrl =>
    show (parseHex ('0' :: '0' :: Nat.digitChar (c.toNat / 16) :: Nat.digitChar (c.toNat % 16) :: r)).bind _ = none
    rw [parseHex_ctrl hctrl, Option.bind_some]
    exact if_pos (by omega)
  · next hb _ _ _ _ _ _ =>
    show partner lead (c :: r) = none
    unfold partner
    split
    · next heq => exact absurd (List.cons.inj heq).1 hb
    · rfl

/-- No partner follows a surrogate that is escaped. -/
theorem parseEscape_surrogate {n : Nat} {s : List CodePoint} (hs : Lone (.surrogate n :: s)) (r : List Char) :
    parseEscape ('u' :: Nat.digitChar (n / 4096) :: Nat.digitChar (n / 256 % 16) :: Nat.digitChar (n / 16 % 16) ::
      Nat.digitChar (n % 16) :: (s.flatMap CodePoint.escape ++ '"' :: r)) = none := by
  have hn := hs.1 n List.mem_cons_self
  rw [parseEscape_u, parseHex_digits (by omega)]
  dsimp only
  split
  · rfl
  next hlead =>
    rw [if_neg (by omega)]
    show partner n (s.flatMap CodePoint.escape ++ '"' :: r) = none
    cases s with
    | nil => rfl
    | cons p s =>
      rw [List.flatMap_cons, List.append_assoc]
      cases p with
      | scalar c => exact partner_escape n c _
      | surrogate m =>
        have hm := hs.1 m (List.mem_cons_of_mem _ List.mem_cons_self)
        have hapart : ¬ (n < 0xDC00 ∧ 0xDC00 ≤ m) := (List.isChain_cons_cons.mp hs.2).1
        show (parseHex (Nat.digitChar (m / 4096) :: Nat.digitChar (m / 256 % 16) :: Nat.digitChar (m / 16 % 16) ::
          Nat.digitChar (m % 16) :: _)).bind _ = none
        rw [parseHex_digits (by omega), Option.bind_some]
        exact if_pos (by omega)

/-- A string with a surrogate is refused. -/
theorem parseString_points : ∀ (s : List CodePoint) (n : Nat) (r : List Char), Lone s → (∃ m, .surrogate m ∈ s) →
    parseString n (s.flatMap CodePoint.escape ++ '"' :: r) = none
  | [], _, _, _, h => by
    obtain ⟨m, hm⟩ := h
    cases hm
  | _ :: _, 0, _, _, _ => rfl
  | .surrogate m :: s, n + 1, r, hs, _ => by
    refine (parseString_backslash n _).trans ?_
    show (parseEscape ('u' :: Nat.digitChar (m / 4096) :: Nat.digitChar (m / 256 % 16) :: Nat.digitChar (m / 16 % 16) ::
      Nat.digitChar (m % 16) :: (s.flatMap CodePoint.escape ++ '"' :: r))).bind _ = _
    rw [parseEscape_surrogate hs]
    rfl
  | .scalar c :: s, n + 1, r, hs, h => by
    obtain ⟨m, hm⟩ := h
    have hrest := parseString_points s n r ⟨fun n hn => hs.1 n (List.mem_cons_of_mem _ hn), hs.2.tail⟩
      ⟨m, (List.mem_cons.mp hm).resolve_left nofun⟩
    rw [List.flatMap_cons, List.append_assoc]
    show parseString (n + 1) (Json.escape c ++ _) = _
    rw [parseString_escape, hrest]
    rfl

/-! ## Values -/

/-- A JSON value; a number is its token. -/
inductive Value
  | null
  | bool (b : Bool)
  | num (token : List Char)
  | str (s : List Char)
  | arr (vs : List Value)
  | obj (fields : List (List Char × Value))

mutual
/-- How deep arrays and objects are nested. -/
def Value.depth : Value → Nat
  | .arr vs => depthAll vs + 1
  | .obj fields => depthFields fields + 1
  | _ => 0
def depthAll : List Value → Nat
  | [] => 0
  | v :: vs => max v.depth (depthAll vs)
def depthFields : List (List Char × Value) → Nat
  | [] => 0
  | (_, v) :: fields => max v.depth (depthFields fields)
end

mutual
/-- The text of a value, without blanks. -/
def Value.print : Value → List Char
  | .null => ['n', 'u', 'l', 'l']
  | .bool true => ['t', 'r', 'u', 'e']
  | .bool false => ['f', 'a', 'l', 's', 'e']
  | .num token => token
  | .str s => quote s
  | .arr [] => ['[', ']']
  | .arr (v :: vs) => '[' :: (v.print ++ printItems vs)
  | .obj [] => ['\x7b', '\x7d']
  | .obj ((k, v) :: fields) => '\x7b' :: (quote k ++ ':' :: (v.print ++ printFields fields))
def printItems : List Value → List Char
  | [] => [']']
  | v :: vs => ',' :: (v.print ++ printItems vs)
def printFields : List (List Char × Value) → List Char
  | [] => ['\x7d']
  | (k, v) :: fields => ',' :: (quote k ++ ':' :: (v.print ++ printFields fields))
end

/-- A blank. -/
def isWs (c : Char) : Bool := c = ' ' || c = '\n' || c = '\t' || c = '\r'

/-- Blanks between tokens are skipped. -/
def skipWs (l : List Char) : List Char := l.dropWhile isWs

/-- The text goes on with this. -/
def expect : List Char → List Char → Option (List Char)
  | [], l => some l
  | _ :: _, [] => none
  | p :: ps, c :: l => if c = p then expect ps l else none

/-- The characters of number tokens. -/
def numChar (c : Char) : Bool := c.isDigit || c = '-' || c = '+' || c = '.' || c = 'e' || c = 'E'

/-- At least one digit, then what is allowed. -/
def digitsThen (f : List Char → Bool) (l : List Char) : Bool :=
  l.takeWhile Char.isDigit ≠ [] && f (l.dropWhile Char.isDigit)

/-- An exponent or nothing. -/
def validExponent : List Char → Bool
  | [] => true
  | e :: r => (e = 'e' || e = 'E') && match r with
    | '+' :: r => digitsThen List.isEmpty r
    | '-' :: r => digitsThen List.isEmpty r
    | r => digitsThen List.isEmpty r

/-- A fraction, an exponent, both or nothing. -/
def validFraction : List Char → Bool
  | '.' :: r => digitsThen validExponent r
  | r => validExponent r

/-- The grammar of numbers: a sign, digits without a leading zero, a fraction, an exponent. -/
def validNumber (l : List Char) : Bool :=
  let l := if l.head? = some '-' then l.tail else l
  match l with
  | '0' :: r => validFraction r
  | l => digitsThen validFraction l

mutual
/-- A value, and what follows it; the second argument is what is left of the limit on the nesting. -/
def parseValue : Nat → Nat → List Char → Option (Value × List Char)
  | 0, _, _ => none
  | n + 1, d, l =>
    match skipWs l with
    | [] => none
    | c :: r =>
      if c = '"' then (parseString n r).map fun (s, r) => (.str s, r)
      else if c = '[' then
        if d ≤ 1 then none
        else match skipWs r with
          | ']' :: r => some (.arr [], r)
          | r => (parseItems n (d - 1) r).map fun (vs, r) => (.arr vs, r)
      else if c = '\x7b' then
        if d ≤ 1 then none
        else match skipWs r with
          | '\x7d' :: r => some (.obj [], r)
          | r => (parseFields n (d - 1) r).map fun (fs, r) => (.obj fs, r)
      else if c = 'n' then (expect ['u', 'l', 'l'] r).map fun r => (.null, r)
      else if c = 't' then (expect ['r', 'u', 'e'] r).map fun r => (.bool true, r)
      else if c = 'f' then (expect ['a', 'l', 's', 'e'] r).map fun r => (.bool false, r)
      else if validNumber ((c :: r).takeWhile numChar) then
        some (.num ((c :: r).takeWhile numChar), (c :: r).dropWhile numChar)
      else none
/-- The items of an array up to its end. -/
def parseItems : Nat → Nat → List Char → Option (List Value × List Char)
  | 0, _, _ => none
  | n + 1, d, l => (parseValue n d l).bind fun (v, r) =>
    match skipWs r with
    | ']' :: r => some ([v], r)
    | ',' :: r => (parseItems n d r).map fun (vs, r) => (v :: vs, r)
    | _ => none
/-- The members of an object up to its end. -/
def parseFields : Nat → Nat → List Char → Option (List (List Char × Value) × List Char)
  | 0, _, _ => none
  | n + 1, d, l =>
    match skipWs l with
    | '"' :: r => (parseString n r).bind fun (k, r) =>
      match skipWs r with
      | ':' :: r => (parseValue n d r).bind fun (v, r) =>
        match skipWs r with
        | '\x7d' :: r => some ([(k, v)], r)
        | ',' :: r => (parseFields n d r).map fun (fs, r) => ((k, v) :: fs, r)
        | _ => none
      | _ => none
    | _ => none
end

/-- A whole text, with at most 127 levels of nesting. -/
def fromStr (l : List Char) : Option Value :=
  match parseValue (l.length + 1) 128 l with
  | some (v, r) => if skipWs r = [] then some v else none
  | none => none

/-- The members of an object after the first, with the texts of their values. -/
def printMembers : List (List Char × List Char) → List Char
  | [] => ['\x7d']
  | (k, t) :: ms => ',' :: (quote k ++ ':' :: (t ++ printMembers ms))

/-- An object from the texts of its values. -/
def printObject : List (List Char × List Char) → List Char
  | [] => ['\x7b', '\x7d']
  | (k, t) :: ms => '\x7b' :: (quote k ++ ':' :: (t ++ printMembers ms))

/-! ## Reading what was written -/

mutual
/-- The number tokens of a value. -/
def Value.tokens : Value → List (List Char)
  | .num token => [token]
  | .arr vs => tokensAll vs
  | .obj fields => tokensFields fields
  | _ => []
def tokensAll : List Value → List (List Char)
  | [] => []
  | v :: vs => v.tokens ++ tokensAll vs
def tokensFields : List (List Char × Value) → List (List Char)
  | [] => []
  | (_, v) :: fields => v.tokens ++ tokensFields fields
end

/-- A token of the grammar. -/
def NumToken (t : List Char) : Prop := validNumber t = true ∧ t.all numChar = true

/-- No number goes on. -/
def Ends (r : List Char) : Prop := ∀ c ∈ r.head?, numChar c = false

/-- The value is read from its text, whatever follows. -/
def Reads (v : Value) : Prop := ∀ n d r, v.depth < d → v.print.length ≤ n → Ends r →
  parseValue n d (v.print ++ r) = some (v, r)

theorem skipWs_cons {c : Char} (h : isWs c = false) (l : List Char) : skipWs (c :: l) = c :: l :=
  List.dropWhile_cons_of_neg (by rw [h]; nofun)

/-- What a number can start with. -/
theorem NumToken.head {t : List Char} (h : NumToken t) : ∃ c l, t = c :: l ∧ numChar c = true := by
  cases t with
  | nil => exact absurd h.1 (by decide)
  | cons c l => exact ⟨c, l, rfl, (List.all_eq_true.mp h.2) c List.mem_cons_self⟩

/-- The other tokens start with something else. -/
theorem ne_of_numChar {c x : Char} (h : numChar c = true) (hx : numChar x = false) : c ≠ x := by
  rintro rfl
  rw [hx] at h
  cases h

theorem isWs_numChar {c : Char} (h : numChar c = true) : isWs c = false := by
  simp only [isWs, Bool.or_eq_false_iff, decide_eq_false_iff_not]
  exact ⟨⟨⟨ne_of_numChar h rfl, ne_of_numChar h rfl⟩, ne_of_numChar h rfl⟩, ne_of_numChar h rfl⟩

/-- A text starts with its value, and no value starts as an array ends. -/
theorem print_head (v : Value) (h : ∀ t ∈ v.tokens, NumToken t) :
    ∃ c l, v.print = c :: l ∧ isWs c = false ∧ c ≠ ']' := by
  match v, h with
  | .null, _ => exact ⟨_, _, rfl, rfl, by decide⟩
  | .bool true, _ => exact ⟨_, _, rfl, rfl, by decide⟩
  | .bool false, _ => exact ⟨_, _, rfl, rfl, by decide⟩
  | .num t, h =>
    obtain ⟨c, l, rfl, hc⟩ := (h t (List.mem_singleton.mpr rfl)).head
    exact ⟨c, l, rfl, isWs_numChar hc, ne_of_numChar hc rfl⟩
  | .str s, _ => exact ⟨_, _, rfl, rfl, by decide⟩
  | .arr [], _ => exact ⟨_, _, rfl, rfl, by decide⟩
  | .arr (v :: vs), _ => exact ⟨_, _, rfl, rfl, by decide⟩
  | .obj [], _ => exact ⟨_, _, rfl, rfl, by decide⟩
  | .obj ((k, v) :: fields), _ => exact ⟨_, _, rfl, rfl, by decide⟩

theorem escape_ne_nil (c : Char) : 1 ≤ (escape c).length := by
  unfold escape
  repeat' split
  all_goals exact Nat.succ_le_succ (Nat.zero_le _)

theorem length_quote (s : List Char) : s.length + 2 ≤ (quote s).length := by
  have hbody : s.length ≤ (s.flatMap escape).length := by
    induction s with
    | nil => exact Nat.le_refl _
    | cons c s ih =>
      rw [List.flatMap_cons, List.length_append, List.length_cons]
      have := escape_ne_nil c
      omega
  simp only [quote, List.length_cons, List.length_append, List.length_nil]
  omega

/-- A number is read up to its end. -/
theorem reads_num {t : List Char} (h : NumToken t) : Reads (.num t) := by
  intro n d r _ hn hr
  obtain ⟨c, l, rfl, hc⟩ := h.head
  cases n with
  | zero => exact absurd hn (by simp [Value.print])
  | succ n =>
    have htake : (c :: (l ++ r)).takeWhile numChar = c :: l := by
      rw [← List.cons_append, List.takeWhile_append_of_pos (List.all_eq_true.mp h.2), List.append_right_eq_self]
      cases r with
      | nil => rfl
      | cons x r => exact List.takeWhile_cons_of_neg (by rw [hr x rfl]; nofun)
    have hdrop : (c :: (l ++ r)).dropWhile numChar = r := by
      rw [← List.cons_append, List.dropWhile_append_of_pos (List.all_eq_true.mp h.2)]
      cases r with
      | nil => rfl
      | cons x r => exact List.dropWhile_cons_of_neg (by rw [hr x rfl]; nofun)
    show parseValue (n + 1) d (c :: (l ++ r)) = _
    rw [parseValue, skipWs_cons (isWs_numChar hc)]
    dsimp only
    rw [if_neg (ne_of_numChar hc rfl), if_neg (ne_of_numChar hc rfl), if_neg (ne_of_numChar hc rfl),
      if_neg (ne_of_numChar hc rfl), if_neg (ne_of_numChar hc rfl), if_neg (ne_of_numChar hc rfl), htake, hdrop,
      if_pos h.1]

theorem reads_str (s : List Char) : Reads (.str s) := by
  intro n d r _ hn _
  have hlen := length_quote s
  have hn : (quote s).length ≤ n := hn
  cases n with
  | zero => omega
  | succ n =>
    show parseValue (n + 1) d ('"' :: ((s.flatMap escape ++ ['"']) ++ r)) = _
    rw [parseValue, skipWs_cons rfl, List.append_assoc]
    dsimp only
    rw [if_pos rfl, List.singleton_append, parseString_quote s n r (by omega)]
    rfl

mutual
/-- **Reading what was written** gives the value back and leaves what follows. -/
theorem reads : ∀ v : Value, (∀ t ∈ v.tokens, NumToken t) → Reads v
  | .null, _ => fun n d r _ hn _ => by
    cases n with
    | zero => exact absurd hn (by simp [Value.print])
    | succ n => rfl
  | .bool true, _ => fun n d r _ hn _ => by
    cases n with
    | zero => exact absurd hn (by simp [Value.print])
    | succ n => rfl
  | .bool false, _ => fun n d r _ hn _ => by
    cases n with
    | zero => exact absurd hn (by simp [Value.print])
    | succ n => rfl
  | .num t, h => reads_num (h t (List.mem_singleton.mpr rfl))
  | .str s, _ => reads_str s
  | .arr [], _ => fun n d r hd hn _ => by
    cases n with
    | zero => exact absurd hn (by simp [Value.print])
    | succ n =>
      have hd : ¬ d ≤ 1 := by
        have : 0 + 1 < d := hd
        omega
      show parseValue (n + 1) d ('[' :: ']' :: r) = _
      rw [parseValue, skipWs_cons rfl]
      dsimp only
      rw [if_neg (by decide), if_pos rfl, if_neg hd, skipWs_cons rfl]
      rfl
  | .arr (v :: vs), h => fun n d r hd hn _ => by
    have hv : ∀ t ∈ v.tokens, NumToken t := fun t ht => h t (List.mem_append_left _ ht)
    have hdepth : max v.depth (depthAll vs) + 1 < d := hd
    have hlen : (v.print ++ printItems vs).length + 1 ≤ n := hn
    obtain ⟨c, l, hc, hws, hne⟩ := print_head v hv
    cases n with
    | zero => omega
    | succ n =>
      have hitems := reads_items vs v (reads v hv) (fun t ht => h t (List.mem_append_right _ ht)) n (d - 1) r (by omega)
        (by omega)
      show parseValue (n + 1) d ('[' :: ((v.print ++ printItems vs) ++ r)) = _
      rw [parseValue, skipWs_cons rfl, List.append_assoc]
      dsimp only
      rw [if_neg (by decide), if_pos rfl, if_neg (by omega)]
      have hskip : skipWs (v.print ++ (printItems vs ++ r)) = v.print ++ (printItems vs ++ r) := by
        rw [hc]
        exact skipWs_cons hws _
      rw [hskip]
      split
      · next heq =>
        rw [hc] at heq
        exact absurd (List.cons.inj heq).1 hne
      · rw [hitems]
        rfl
  | .obj [], _ => fun n d r hd hn _ => by
    cases n with
    | zero => exact absurd hn (by simp [Value.print])
    | succ n =>
      have hd : ¬ d ≤ 1 := by
        have : 0 + 1 < d := hd
        omega
      show parseValue (n + 1) d ('\x7b' :: '\x7d' :: r) = _
      rw [parseValue, skipWs_cons rfl]
      dsimp only
      rw [if_neg (by decide), if_neg (by decide), if_pos rfl, if_neg hd, skipWs_cons rfl]
      rfl
  | .obj ((k, v) :: fields), h => fun n d r hd hn _ => by
    have hv : ∀ t ∈ v.tokens, NumToken t := fun t ht => h t (List.mem_append_left _ ht)
    have hdepth : max v.depth (depthFields fields) + 1 < d := hd
    have hlen : (quote k ++ ':' :: (v.print ++ printFields fields)).length + 1 ≤ n := hn
    cases n with
    | zero => omega
    | succ n =>
      have hfields := reads_fields fields k v (reads v hv) (fun t ht => h t (List.mem_append_right _ ht)) n (d - 1) r
        (by omega) (by omega)
      show parseValue (n + 1) d ('\x7b' :: ((quote k ++ ':' :: (v.print ++ printFields fields)) ++ r)) = _
      rw [parseValue, skipWs_cons rfl]
      dsimp only
      rw [if_neg (by decide), if_neg (by decide), if_pos rfl, if_neg (by omega)]
      have hskip : skipWs ((quote k ++ ':' :: (v.print ++ printFields fields)) ++ r) =
          (quote k ++ ':' :: (v.print ++ printFields fields)) ++ r := skipWs_cons rfl _
      rw [hskip]
      split
      · next heq => exact absurd (List.cons.inj heq).1 (by decide)
      · rw [hfields]
        rfl
theorem reads_items : ∀ (vs : List Value) (v : Value), Reads v → (∀ t ∈ tokensAll vs, NumToken t) → ∀ n d r,
    max v.depth (depthAll vs) < d → (v.print ++ printItems vs).length ≤ n →
    parseItems n d (v.print ++ (printItems vs ++ r)) = some (v :: vs, r)
  | [], v, hv, _, n, d, r, hd, hn => by
    rw [List.length_append] at hn
    have hn : v.print.length + 1 ≤ n := hn
    cases n with
    | zero => omega
    | succ n =>
      show parseItems (n + 1) d (v.print ++ ']' :: r) = _
      rw [parseItems, hv n d (']' :: r) (lt_of_le_of_lt (Nat.le_max_left _ _) hd) (by omega) (fun c hc => by cases hc; rfl)]
      dsimp only [Option.bind_some]
      rw [skipWs_cons rfl]
      rfl
  | w :: ws, v, hv, h, n, d, r, hd, hn => by
    have hw : ∀ t ∈ w.tokens, NumToken t := fun t ht => h t (List.mem_append_left _ ht)
    have hdepth : max v.depth (max w.depth (depthAll ws)) < d := hd
    rw [List.length_append] at hn
    have hn : v.print.length + ((w.print ++ printItems ws).length + 1) ≤ n := hn
    cases n with
    | zero => omega
    | succ n =>
      have hrest := reads_items ws w (reads w hw) (fun t ht => h t (List.mem_append_right _ ht)) n d r (by omega) (by omega)
      show parseItems (n + 1) d (v.print ++ ',' :: ((w.print ++ printItems ws) ++ r)) = _
      rw [parseItems, hv n d _ (by omega) (by omega) (fun c hc => by cases hc; rfl)]
      dsimp only [Option.bind_some]
      rw [skipWs_cons rfl, List.append_assoc]
      show (parseItems n d (w.print ++ (printItems ws ++ r))).map _ = _
      rw [hrest]
      rfl
theorem reads_fields : ∀ (fields : List (List Char × Value)) (k : List Char) (v : Value), Reads v →
    (∀ t ∈ tokensFields fields, NumToken t) → ∀ n d r, max v.depth (depthFields fields) < d →
    (quote k ++ ':' :: (v.print ++ printFields fields)).length ≤ n →
    parseFields n d ((quote k ++ ':' :: (v.print ++ printFields fields)) ++ r) = some ((k, v) :: fields, r)
  | fields, k, v, hv, h, n, d, r, hd, hn => by
    have hk := length_quote k
    rw [List.length_append, List.length_cons, List.length_append] at hn
    cases n with
    | zero => omega
    | succ n =>
      have hopen : (quote k ++ ':' :: (v.print ++ printFields fields)) ++ r =
          '"' :: (k.flatMap escape ++ '"' :: ':' :: (v.print ++ (printFields fields ++ r))) := by
        simp [quote]
      rw [hopen, parseFields, skipWs_cons rfl]
      show (parseString n (k.flatMap escape ++ '"' :: ':' :: (v.print ++ (printFields fields ++ r)))).bind _ = _
      rw [parseString_quote k n _ (by omega)]
      dsimp only [Option.bind_some]
      rw [skipWs_cons rfl]
      show (parseValue n d (v.print ++ (printFields fields ++ r))).bind _ = _
      match fields, h, hd, hn with
      | [], _, hd, hn =>
        rw [show printFields [] ++ r = '\x7d' :: r from rfl, hv n d _ (lt_of_le_of_lt (Nat.le_max_left _ _) hd) (by omega)
          (fun c hc => by cases hc; rfl)]
        dsimp only [Option.bind_some]
        rw [skipWs_cons rfl]
        rfl
      | (k', w) :: fs, h, hd, hn =>
        have hw : ∀ t ∈ w.tokens, NumToken t := fun t ht => h t (List.mem_append_left _ ht)
        have hdepth : max v.depth (max w.depth (depthFields fs)) < d := hd
        have hn : (quote k).length + (v.print.length + ((quote k' ++ ':' :: (w.print ++ printFields fs)).length + 1) + 1) ≤
          n + 1 := hn
        have hrest := reads_fields fs k' w (reads w hw) (fun t ht => h t (List.mem_append_right _ ht)) n d r (by omega)
          (by omega)
        rw [show printFields ((k', w) :: fs) ++ r = ',' :: ((quote k' ++ ':' :: (w.print ++ printFields fs)) ++ r) from rfl,
          hv n d _ (by omega) (by omega) (fun c hc => by cases hc; rfl)]
        dsimp only [Option.bind_some]
        rw [skipWs_cons rfl]
        show (parseFields n d ((quote k' ++ ':' :: (w.print ++ printFields fs)) ++ r)).map _ = _
        rw [hrest]
        rfl
end

/-- **A whole text** is read back if the value is nested less than 128 deep. -/
theorem fromStr_print (v : Value) (ht : ∀ t ∈ v.tokens, NumToken t) (hd : v.depth < 128) : fromStr v.print = some v := by
  have h := reads v ht (v.print.length + 1) 128 [] hd (Nat.le_succ _) nofun
  rw [List.append_nil] at h
  rw [fromStr, h]
  rfl

/-! ## The limit on the nesting -/

mutual
/-- What is read is not nested too deep. -/
theorem depth_parseValue : ∀ (n d : Nat) {l r : List Char} {v : Value}, parseValue n d l = some (v, r) → v.depth < max d 1
  | 0, _, _, _, _, h => by cases h
  | n + 1, d, l, r, v, h => by
    have hplain {w : Value} (hw : w.depth = 0) (hv : v = w) : v.depth < max d 1 := by
      rw [hv, hw]
      exact Nat.lt_of_lt_of_le Nat.one_pos (Nat.le_max_right _ _)
    unfold parseValue at h
    split at h
    · cases h
    split at h
    · obtain ⟨x, -, hx⟩ := Option.map_eq_some_iff.mp h
      exact hplain rfl (congrArg Prod.fst hx).symm
    split at h
    · split at h
      · cases h
      next hd =>
        split at h
        · cases h
          show 0 + 1 < max d 1
          omega
        · obtain ⟨x, hx, heq⟩ := Option.map_eq_some_iff.mp h
          cases heq
          have := depth_parseItems n (d - 1) hx
          show depthAll x.1 + 1 < max d 1
          omega
    split at h
    · split at h
      · cases h
      next hd =>
        split at h
        · cases h
          show 0 + 1 < max d 1
          omega
        · obtain ⟨x, hx, heq⟩ := Option.map_eq_some_iff.mp h
          cases heq
          have := depth_parseFields n (d - 1) hx
          show depthFields x.1 + 1 < max d 1
          omega
    split at h
    · obtain ⟨x, -, hx⟩ := Option.map_eq_some_iff.mp h
      exact hplain rfl (congrArg Prod.fst hx).symm
    split at h
    · obtain ⟨x, -, hx⟩ := Option.map_eq_some_iff.mp h
      exact hplain rfl (congrArg Prod.fst hx).symm
    split at h
    · obtain ⟨x, -, hx⟩ := Option.map_eq_some_iff.mp h
      exact hplain rfl (congrArg Prod.fst hx).symm
    split at h
    · exact hplain rfl (congrArg Prod.fst (Option.some.inj h)).symm
    · cases h
theorem depth_parseItems : ∀ (n d : Nat) {l r : List Char} {vs : List Value}, parseItems n d l = some (vs, r) →
    depthAll vs < max d 1
  | 0, _, _, _, _, h => by cases h
  | n + 1, d, l, r, vs, h => by
    unfold parseItems at h
    obtain ⟨⟨v, l'⟩, hv, h⟩ := Option.bind_eq_some_iff.mp h
    have hdepth := depth_parseValue n d hv
    dsimp only at h
    split at h
    · cases h
      exact Nat.max_lt.mpr ⟨hdepth, Nat.lt_of_le_of_lt (Nat.zero_le _) hdepth⟩
    · obtain ⟨x, hx, heq⟩ := Option.map_eq_some_iff.mp h
      cases heq
      exact Nat.max_lt.mpr ⟨hdepth, depth_parseItems n d hx⟩
    · cases h
theorem depth_parseFields : ∀ (n d : Nat) {l r : List Char} {fs : List (List Char × Value)},
    parseFields n d l = some (fs, r) → depthFields fs < max d 1
  | 0, _, _, _, _, h => by cases h
  | n + 1, d, l, r, fs, h => by
    unfold parseFields at h
    split at h
    · obtain ⟨⟨k, l₁⟩, -, h⟩ := Option.bind_eq_some_iff.mp h
      dsimp only at h
      split at h
      · obtain ⟨⟨v, l₂⟩, hv, h⟩ := Option.bind_eq_some_iff.mp h
        have hdepth := depth_parseValue n d hv
        dsimp only at h
        split at h
        · cases h
          exact Nat.max_lt.mpr ⟨hdepth, Nat.lt_of_le_of_lt (Nat.zero_le _) hdepth⟩
        · obtain ⟨x, hx, heq⟩ := Option.map_eq_some_iff.mp h
          cases heq
          exact Nat.max_lt.mpr ⟨hdepth, depth_parseFields n d hx⟩
        · cases h
      · cases h
    · cases h
end

theorem depth_fromStr {l : List Char} {v : Value} (h : fromStr l = some v) : v.depth < 128 := by
  unfold fromStr at h
  split at h
  · next w r hw =>
    split at h
    · cases h
      exact depth_parseValue _ 128 hw
    · cases h
  · cases h

/-! ## Objects with a text that is refused -/

/-- No value starts here. -/
def Refused (t : List Char) : Prop := ∀ n d r, parseValue n d (t ++ r) = none

/-- The text of a value without nesting. -/
def Plain (t : List Char) : Prop := ∃ v : Value, t = v.print ∧ v.depth = 0 ∧ ∀ t ∈ v.tokens, NumToken t

theorem refused_points {s : List CodePoint} (hs : Lone s) (h : ∃ m, .surrogate m ∈ s) : Refused (quotePoints s) := by
  intro n d r
  cases n with
  | zero => rfl
  | succ n =>
    show parseValue (n + 1) d ('"' :: ((s.flatMap CodePoint.escape ++ ['"']) ++ r)) = none
    rw [parseValue, skipWs_cons rfl, List.append_assoc]
    dsimp only
    rw [if_pos rfl, List.singleton_append, parseString_points s n r hs h]
    rfl

theorem Plain.not_refused {t : List Char} (h : Plain t) : ¬ Refused t := by
  obtain ⟨v, rfl, hv, htok⟩ := h
  intro hbad
  have hgood := reads v htok v.print.length 1 [] (by omega) (Nat.le_refl _) nofun
  rw [hbad] at hgood
  cases hgood

theorem mem_tokensFields {t : List Char} : ∀ {fields : List (List Char × Value)}, t ∈ tokensFields fields →
    ∃ f ∈ fields, t ∈ f.2.tokens
  | [], h => by cases h
  | f :: fields, h => by
    rcases List.mem_append.mp h with h | h
    · exact ⟨f, List.mem_cons_self, h⟩
    · obtain ⟨g, hg, ht⟩ := mem_tokensFields h
      exact ⟨g, List.mem_cons_of_mem _ hg, ht⟩

theorem depthFields_eq_zero : ∀ {fields : List (List Char × Value)}, (∀ f ∈ fields, f.2.depth = 0) → depthFields fields = 0
  | [], _ => rfl
  | f :: fields, h => by
    show max f.2.depth (depthFields fields) = 0
    rw [h f List.mem_cons_self, depthFields_eq_zero fun g hg => h g (List.mem_cons_of_mem _ hg), max_self]

theorem printMembers_print (fields : List (List Char × Value)) :
    printMembers (fields.map fun (k, v) => (k, v.print)) = printFields fields := by
  induction fields with
  | nil => rfl
  | cons f fields ih =>
    show ',' :: (quote f.1 ++ ':' :: (f.2.print ++ printMembers _)) = _
    rw [ih]
    rfl

theorem printObject_print (fields : List (List Char × Value)) :
    printObject (fields.map fun (k, v) => (k, v.print)) = (Value.obj fields).print := by
  cases fields with
  | nil => rfl
  | cons f fields =>
    show '\x7b' :: (quote f.1 ++ ':' :: (f.2.print ++ printMembers _)) = _
    rw [printMembers_print]
    rfl

theorem parseFields_refused {d : Nat} (hd : 0 < d) : ∀ (ms : List (List Char × List Char)) (k t : List Char),
    (∀ m ∈ (k, t) :: ms, Refused m.2 ∨ Plain m.2) → (∃ m ∈ (k, t) :: ms, Refused m.2) →
    ∀ n, (quote k ++ ':' :: (t ++ printMembers ms)).length ≤ n →
    parseFields n d (quote k ++ ':' :: (t ++ printMembers ms)) = none
  | _, _, _, _, _, 0, _ => rfl
  | ms, k, t, hall, hex, n + 1, hn => by
    have hk := length_quote k
    rw [List.length_append, List.length_cons, List.length_append] at hn
    have hopen : quote k ++ ':' :: (t ++ printMembers ms) =
        '"' :: (k.flatMap escape ++ '"' :: ':' :: (t ++ printMembers ms)) := by
      simp [quote]
    rw [hopen, parseFields, skipWs_cons rfl]
    show (parseString n (k.flatMap escape ++ '"' :: ':' :: (t ++ printMembers ms))).bind _ = _
    rw [parseString_quote k n _ (by omega)]
    dsimp only [Option.bind_some]
    rw [skipWs_cons rfl]
    show (parseValue n d (t ++ printMembers ms)).bind _ = _
    rcases hall _ List.mem_cons_self with hbad | hplain
    · rw [hbad]
      rfl
    have hlater : ∃ m ∈ ms, Refused m.2 := by
      obtain ⟨m, hm, hbad⟩ := hex
      rcases List.mem_cons.mp hm with rfl | hm
      · exact absurd hbad hplain.not_refused
      · exact ⟨m, hm, hbad⟩
    cases ms with
    | nil =>
      obtain ⟨m, hm, -⟩ := hlater
      cases hm
    | cons m ms =>
      obtain ⟨v, rfl, hv, htok⟩ := hplain
      have hn : (quote k).length + (v.print.length + ((quote m.1 ++ ':' :: (m.2 ++ printMembers ms)).length + 1) + 1) ≤
        n + 1 := hn
      have hrest := parseFields_refused hd ms m.1 m.2 (fun m hm => hall m (List.mem_cons_of_mem _ hm)) hlater n (by omega)
      rw [show printMembers (m :: ms) = ',' :: (quote m.1 ++ ':' :: (m.2 ++ printMembers ms)) from rfl,
        reads v htok n d _ (hv ▸ hd) (by omega) (fun c hc => by cases hc; rfl)]
      dsimp only [Option.bind_some]
      rw [skipWs_cons rfl]
      show (parseFields n d (quote m.1 ++ ':' :: (m.2 ++ printMembers ms))).map _ = none
      rw [hrest]
      rfl

/-- **Plain values** are read back from their object. -/
theorem fromStr_plain {fields : List (List Char × Value)}
    (h : ∀ f ∈ fields, f.2.depth = 0 ∧ ∀ t ∈ f.2.tokens, NumToken t) :
    fromStr (printObject (fields.map fun (k, v) => (k, v.print))) = some (.obj fields) := by
  rw [printObject_print]
  refine fromStr_print _ (fun t ht => ?_) ?_
  · obtain ⟨f, hf, ht⟩ := mem_tokensFields ht
    exact (h f hf).2 t ht
  · show depthFields fields + 1 < 128
    rw [depthFields_eq_zero fun f hf => (h f hf).1]
    decide

/-- **One text that is refused** makes the object unreadable. -/
theorem fromStr_refused {ms : List (List Char × List Char)} (hall : ∀ m ∈ ms, Refused m.2 ∨ Plain m.2)
    (hex : ∃ m ∈ ms, Refused m.2) : fromStr (printObject ms) = none := by
  cases ms with
  | nil =>
    obtain ⟨m, hm, -⟩ := hex
    cases hm
  | cons m ms =>
    have hfields := parseFields_refused (d := 127) (by decide) ms m.1 m.2 hall hex
      (quote m.1 ++ ':' :: (m.2 ++ printMembers ms)).length.succ (Nat.le_succ _)
    have hskip : skipWs (quote m.1 ++ ':' :: (m.2 ++ printMembers ms)) = quote m.1 ++ ':' :: (m.2 ++ printMembers ms) :=
      skipWs_cons rfl _
    show (match parseValue ((quote m.1 ++ ':' :: (m.2 ++ printMembers ms)).length.succ + 1) 128
      ('\x7b' :: (quote m.1 ++ ':' :: (m.2 ++ printMembers ms))) with
      | some (v, r) => if skipWs r = [] then some v else none
      | none => none) = none
    rw [parseValue, skipWs_cons rfl]
    dsimp only
    rw [if_neg (by decide), if_neg (by decide), if_pos rfl, if_neg (by decide), hskip]
    split
    · next heq =>
      split at heq
      · next hclose => exact absurd (List.cons.inj hclose).1 (by decide)
      · rw [hfields] at heq
        cases heq
    · rfl

/-! ## Fields -/

/-- The fields that are there. -/
def members {α β : Type} (f : α → Option β) (l : List (List Char × α)) : List (List Char × β) :=
  l.filterMap fun m => (f m.2).map (m.1, ·)

/-- The value of a field; a field that stands twice is an error. -/
def getField (k : List Char) (fields : List (List Char × Value)) : Option (Option Value) :=
  match fields.filter fun f => f.1 = k with
  | [] => some none
  | [f] => some (some f.2)
  | _ => none

/-- A `String`. -/
def readString : Option Value → Option (List Char)
  | some (.str s) => some s
  | _ => none

/-- An `Option<String>`. -/
def readOptString : Option Value → Option (Option (List Char))
  | none => some none
  | some .null => some none
  | some (.str s) => some (some s)
  | _ => none

/-- A field is found under its name. -/
theorem filter_members {α β : Type} {f : α → Option β} {k : List Char} {v : α} : ∀ {l : List (List Char × α)},
    (l.map Prod.fst).Nodup → (k, v) ∈ l → (members f l).filter (fun m => m.1 = k) = ((f v).map (k, ·)).toList
  | m :: l, hnodup, h => by
    obtain ⟨hm, hnodup⟩ := List.nodup_cons.mp hnodup
    have hcons : members f (m :: l) = ((f m.2).map (m.1, ·)).toList ++ members f l := by
      unfold members
      rw [List.filterMap_cons]
      cases f m.2 <;> rfl
    rw [hcons, List.filter_append]
    by_cases hk : m.1 = k
    · obtain rfl : (k, v) = m := (List.mem_cons.mp h).resolve_right fun h => hm (hk ▸ List.mem_map_of_mem h)
      have hrest : (members f l).filter (fun m => m.1 = k) = [] := by
        refine List.filter_eq_nil_iff.mpr fun x hx => ?_
        obtain ⟨y, hy, hxy⟩ := List.mem_filterMap.mp hx
        obtain ⟨w, -, rfl⟩ := Option.map_eq_some_iff.mp hxy
        intro heq
        exact hm (List.mem_map.mpr ⟨y, hy, of_decide_eq_true heq⟩)
      rw [hrest, List.append_nil]
      cases f v with
      | none => rfl
      | some w => exact List.filter_cons_of_pos (decide_eq_true rfl)
    · rw [filter_members hnodup ((List.mem_cons.mp h).resolve_left fun h => hk (h ▸ rfl))]
      cases f m.2 with
      | none => rfl
      | some w =>
        show List.filter _ [(m.1, w)] ++ _ = _
        rw [List.filter_cons_of_neg (by simpa using hk)]
        rfl

theorem getField_members {α : Type} {f : α → Option Value} {l : List (List Char × α)} (hnodup : (l.map Prod.fst).Nodup)
    {k : List Char} {v : α} (h : (k, v) ∈ l) : getField k (members f l) = some (f v) := by
  rw [getField, filter_members hnodup h]
  cases f v <;> rfl

end Eddyq.Lib.Json
