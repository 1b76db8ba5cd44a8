import Mathlib.Data.List.Infix
import Mathlib.Data.List.TakeWhile

/-!
# Lua patterns

`string.match` of Lua 5.1 on bytes, with classes, sets, quantifiers, captures, back references, `%b` and `%f`. A pattern ends at
its first zero byte. `doMatch` is the matcher on what is left of the subject and of the pattern; every call of itself is on
a shorter pattern, so that the length of the pattern is enough fuel. An item without a quantifier takes one byte of its
class (`matchItem_single`), one with a star as many as leave a match for the rest (`matchItem_star`).
-/

namespace Eddyq.Lib.LuaPattern

/-- A byte of a pattern. -/
abbrev byte (c : Char) : UInt8 := c.toUInt8

/-- What is wrong with a pattern. -/
inductive PatternError
  | endsWithEscape      -- "malformed pattern (ends with '%')"
  | missingBracket      -- "malformed pattern (missing ']')"
  | missingSet          -- "missing '[' after '%f' in pattern"
  | unbalanced          -- "unbalanced pattern"
  | tooManyCaptures
  | invalidCapture      -- "invalid pattern capture"
  | invalidCaptureIndex
  | unfinishedCapture
  deriving DecidableEq

/-- `CAP_UNFINISHED`, `CAP_POSITION`, or the length of a capture. -/
inductive CaptureLength
  | unfinished
  | position
  | closed (n : Nat)
  deriving DecidableEq

/-- Where a capture starts, by what is left of the subject there. -/
structure Capture where
  start : List UInt8
  len : CaptureLength
  deriving DecidableEq

/-- A match: what it leaves of the subject, and its captures. -/
abbrev Result := Except PatternError (Option (List UInt8 × List Capture))

/-! ## Classes -/

def isUpper (c : UInt8) : Bool := byte 'A' ≤ c && c ≤ byte 'Z'
def isLower (c : UInt8) : Bool := byte 'a' ≤ c && c ≤ byte 'z'
def isDigit (c : UInt8) : Bool := byte '0' ≤ c && c ≤ byte '9'
def isAlpha (c : UInt8) : Bool := isUpper c || isLower c
def isAlnum (c : UInt8) : Bool := isAlpha c || isDigit c
def isCntrl (c : UInt8) : Bool := c < 32 || c = 127
def isPunct (c : UInt8) : Bool := 32 < c && c < 127 && !isAlnum c
def isSpace (c : UInt8) : Bool := c = 32 || (9 ≤ c && c ≤ 13)
def isXdigit (c : UInt8) : Bool := isDigit c || (byte 'a' ≤ c && c ≤ byte 'f') || (byte 'A' ≤ c && c ≤ byte 'F')

/-- The class of a letter, in lower case. -/
def letterClass (cl : UInt8) : Option (UInt8 → Bool) :=
  if cl = byte 'a' then some isAlpha
  else if cl = byte 'c' then some isCntrl
  else if cl = byte 'd' then some isDigit
  else if cl = byte 'l' then some isLower
  else if cl = byte 'p' then some isPunct
  else if cl = byte 's' then some isSpace
  else if cl = byte 'u' then some isUpper
  else if cl = byte 'w' then some isAlnum
  else if cl = byte 'x' then some isXdigit
  else if cl = byte 'z' then some (· = 0)
  else none

/-- `match_class`: what stands after an escape. -/
def matchClass (c cl : UInt8) : Bool :=
  match letterClass (if isUpper cl then cl + 32 else cl) with
  | some f => if isLower cl then f c else !f c
  | none => cl = c

/-- A set between its brackets, without the caret. -/
def inSet (c : UInt8) : List UInt8 → Bool
  | [] => false
  | [x] => x ≠ byte '%' && x = c
  | x :: y :: rest =>
    if x = byte '%' then matchClass c y || inSet c rest
    else if y = byte '-' then match rest with
      | [] => x = c || y = c
      | z :: rest => (x ≤ c && c ≤ z) || inSet c rest
    else x = c || inSet c (y :: rest)

/-- `matchbracketclass`. -/
def matchBracketClass (c : UInt8) (body : List UInt8) : Bool :=
  if body.head? = some (byte '^') then !inSet c body.tail else inSet c body

/-- The loop of `classend` over a set: what stands after its `]`, which is not the first byte. -/
def bracketEnd : List UInt8 → Except PatternError (List UInt8)
  | [] => .error .missingBracket
  | c :: p =>
    if c = byte '%' then match p with
      | [] => .error .missingBracket
      | _ :: p => if p.head? = some (byte ']') then .ok p.tail else bracketEnd p
    else if p.head? = some (byte ']') then .ok p.tail
    else bracketEnd p

/-- `classend`: what stands after the item. -/
def classEnd : List UInt8 → Except PatternError (List UInt8)
  | [] => .ok []
  | c :: p =>
    if c = byte '%' then match p with
      | [] => .error .endsWithEscape
      | _ :: p => .ok p
    else if c = byte '[' then bracketEnd (if p.head? = some (byte '^') then p.tail else p)
    else .ok p

/-- The bytes between the brackets of a set; `ep` is what stands after it. -/
def setBody (p ep : List UInt8) : List UInt8 := p.tail.take (p.length - ep.length - 2)

/-- `singlematch`. -/
def singleMatch (c : UInt8) (p ep : List UInt8) : Bool :=
  match p with
  | [] => false
  | d :: q =>
    if d = byte '.' then true
    else if d = byte '%' then matchClass c (q.headD 0)
    else if d = byte '[' then matchBracketClass c (setBody p ep)
    else d = c

/-! ## Captures -/

/-- `capture_to_close`, closed at `s`. -/
def closeCapture (s : List UInt8) : List Capture → Except PatternError (List Capture)
  | [] => .error .invalidCapture
  | x :: caps => match closeCapture s caps with
    | .ok caps => .ok (x :: caps)
    | .error _ =>
      if x.len = .unfinished then .ok ({ x with len := .closed (x.start.length - s.length) } :: caps)
      else .error .invalidCapture

/-- `match_capture`: what is left after the text of a capture, if it is there. -/
def matchCapture (caps : List Capture) (l : UInt8) (s : List UInt8) : Except PatternError (Option (List UInt8)) :=
  if l < byte '1' then .error .invalidCaptureIndex
  else match caps[(l - byte '1').toNat]? with
    | none => .error .invalidCaptureIndex
    | some x => match x.len with
      | .unfinished => .error .invalidCaptureIndex
      | .position => .ok none
      | .closed n => .ok (if (x.start.take n).isPrefixOf s then some (s.drop n) else none)

/-- The loop of `matchbalance`, `count` levels deep. -/
def balance (b e : UInt8) : Nat → List UInt8 → Option (List UInt8)
  | _, [] => none
  | count, c :: s =>
    if c = e then if count = 1 then some s else balance b e (count - 1) s
    else if c = b then balance b e (count + 1) s
    else balance b e count s

/-- `matchbalance`. -/
def matchBalance (s : List UInt8) : List UInt8 → Except PatternError (Option (List UInt8))
  | b :: e :: _ => match s with
    | [] => .ok none
    | c :: s => .ok (if c = b then balance b e 1 s else none)
  | _ => .error .unbalanced

/-! ## The matcher -/

/-- The first success of a loop. -/
def firstMatch {ι : Type} (f : ι → Result) : List ι → Result
  | [] => .ok none
  | i :: l => match f i with
    | .ok none => firstMatch f l
    | r => r

/-- `LUA_MAXCAPTURES`. -/
def maxCaptures : Nat := 32

/-- The byte before `s`. -/
def previous (src s : List UInt8) : UInt8 := (src.take (src.length - s.length)).getLastD 0

/-- A pattern item with its quantifier; `rest` matches what is left of the pattern against what is left of the subject. -/
def matchItem (rest : List UInt8 → List UInt8 → Result) (s p : List UInt8) : Result :=
  match classEnd p with
  | .error e => .error e
  | .ok ep =>
    let test := fun c => singleMatch c p ep
    let here := (s.head?.map test).getD false
    let many := (s.takeWhile test).length
    match ep with
    | [] => if here then rest s.tail [] else .ok none
    | d :: q =>
      if d = byte '?' then firstMatch (fun t => rest t q) (if here then [s.tail, s] else [s])
      else if d = byte '*' then firstMatch (fun i => rest (s.drop i) q) (List.range (many + 1)).reverse
      else if d = byte '+' then firstMatch (fun i => rest (s.drop i) q) (List.range' 1 many).reverse
      else if d = byte '-' then firstMatch (fun i => rest (s.drop i) q) (List.range (many + 1))
      else if here then rest s.tail ep
      else .ok none

/-- `match` on what is left of the subject `src` and of the pattern. -/
def doMatch (src : List UInt8) : Nat → List UInt8 → List UInt8 → List Capture → Result
  | 0, _, _, _ => .ok none
  | n + 1, s, p, caps =>
    let item := matchItem (fun t q => doMatch src n t q caps) s p
    match p with
    | [] => .ok (some (s, caps))
    | c :: q =>
      if c = byte '(' then
        if caps.length ≥ maxCaptures then .error .tooManyCaptures
        else if q.head? = some (byte ')') then doMatch src n s q.tail (caps ++ [⟨s, .position⟩])
        else doMatch src n s q (caps ++ [⟨s, .unfinished⟩])
      else if c = byte ')' then
        match closeCapture s caps with
        | .error e => .error e
        | .ok caps => doMatch src n s q caps
      else if c = byte '%' then
        match q with
        | [] => item
        | d :: q =>
          if d = byte 'b' then
            match matchBalance s q with
            | .error e => .error e
            | .ok none => .ok none
            | .ok (some s) => doMatch src n s (q.drop 2) caps
          else if d = byte 'f' then
            if q.head? ≠ some (byte '[') then .error .missingSet
            else match classEnd q with
              | .error e => .error e
              | .ok ep =>
                if matchBracketClass (previous src s) (setBody q ep) || !matchBracketClass (s.headD 0) (setBody q ep) then
                  .ok none
                else doMatch src n s ep caps
          else if isDigit d then
            match matchCapture caps d s with
            | .error e => .error e
            | .ok none => .ok none
            | .ok (some s) => doMatch src n s q caps
          else item
      else if c = byte '$' ∧ q = [] then .ok (if s = [] then some (s, caps) else none)
      else item

/-- Whether `string.match` finds the pattern, which is anchored at a caret. -/
def stringMatch (s p : List UInt8) : Except PatternError Bool :=
  let p := p.takeWhile (· ≠ 0)
  let at_ := fun p t => doMatch s (p.length + 1) t p []
  match (match p with
    | [] => at_ [] s
    | c :: q => if c = byte '^' then at_ q s else firstMatch (at_ p) s.tails) with
  | .error e => .error e
  | .ok none => .ok false
  | .ok (some (_, caps)) => if caps.any (fun x => x.len = CaptureLength.unfinished) then .error .unfinishedCapture else .ok true

/-! ## Items -/

section Items

variable {src s p q : List UInt8} {n : Nat} {caps : List Capture} {rest : List UInt8 → List UInt8 → Result}

/-- The pattern starts with an item: no capture, no anchor, no `%b`, `%f` or back reference. -/
structure StartsItem (c : UInt8) (q : List UInt8) : Prop where
  opens : c ≠ byte '('
  closes : c ≠ byte ')'
  anchor : ¬(c = byte '$' ∧ q = [])
  escape : c = byte '%' → ∃ d q', q = d :: q' ∧ d ≠ byte 'b' ∧ d ≠ byte 'f' ∧ isDigit d = false

/-- A byte that is no quantifier. -/
def Unquantified (b : UInt8) : Prop := b ≠ byte '?' ∧ b ≠ byte '*' ∧ b ≠ byte '+' ∧ b ≠ byte '-'

theorem doMatch_item {c : UInt8} (h : StartsItem c q) : doMatch src (n + 1) s (c :: q) caps =
    matchItem (fun t q => doMatch src n t q caps) s (c :: q) := by
  rw [doMatch.eq_def]
  dsimp only
  rw [if_neg h.opens, if_neg h.closes]
  by_cases hesc : c = byte '%'
  · obtain ⟨d, q', rfl, hb, hf, hd⟩ := h.escape hesc
    rw [if_pos hesc]
    dsimp only
    rw [if_neg hb, if_neg hf, hd]
    rfl
  · rw [if_neg hesc, if_neg h.anchor]

/-- **An item without a quantifier** takes one byte. -/
theorem matchItem_single {b : UInt8} {bs : List UInt8} (hend : classEnd p = .ok (b :: bs)) (hb : Unquantified b) :
    matchItem rest s p = match s with
      | [] => .ok none
      | c :: t => if singleMatch c p (b :: bs) then rest t (b :: bs) else .ok none := by
  obtain ⟨hmark, hstar, hplus, hminus⟩ := hb
  rw [matchItem, hend]
  dsimp only
  rw [if_neg hmark, if_neg hstar, if_neg hplus, if_neg hminus]
  cases s <;> rfl

/-- **An item with a star** takes as many as leave a match. -/
theorem matchItem_star (hend : classEnd p = .ok (byte '*' :: q)) : matchItem rest s p =
    firstMatch (fun i => rest (s.drop i) q)
      (List.range ((s.takeWhile fun c => singleMatch c p (byte '*' :: q)).length + 1)).reverse := by
  rw [matchItem, hend]
  rfl

/-- A loop whose turns are all decided. -/
theorem firstMatch_decided {ι : Type} {f : ι → Result} {g : ι → Bool} {r : List UInt8 × List Capture} :
    ∀ {l : List ι}, (∀ i ∈ l, f i = .ok (if g i then some r else none)) →
      firstMatch f l = .ok (if l.any g then some r else none)
  | [], _ => rfl
  | i :: l, h => by
    have hi := h i List.mem_cons_self
    rw [firstMatch, hi, List.any_cons]
    cases hg : g i with
    | true => rfl
    | false =>
      rw [Bool.false_or]
      exact firstMatch_decided fun j hj => h j (List.mem_cons_of_mem _ hj)

end Items

end Eddyq.Lib.LuaPattern
