import Eddyq.Lib.Double
import Eddyq.Runtime.Retry

/-!
# The envelope of an error

`wrapHandler` catches what a JavaScript handler throws and throws an `Error` whose message is the marker and the JSON of
`formatError`; `parse_js_failure` finds the marker in what napi reports and reads the JSON into a `HandlerFailure`. One
field that its struct refuses loses the envelope, and with it the name, the stack and the directive. `carried_iff` says
which thrown values get through (`Fits`): their strings have no lone surrogates, and the delay is one that JSON writes as
the digits of a `u64`.
-/

namespace Eddyq.Js

open Lib Lib.Json
open Eddyq.Runtime (Directive)

/-! ## JavaScript -/

/-- A string of JavaScript: units of UTF-16. -/
abbrev JsString := List UInt16

/-- A number of JavaScript. -/
inductive Number
  | nan
  | infinity (neg : Bool)
  | finite (x : Double)

/-- A value that a field of an error may have. -/
inductive JsValue
  | undefined
  | null
  | boolean (b : Bool)
  | number (x : Number)
  | string (s : JsString)

/-- The fields of an error or an object that `formatError` reads; `text` is what `String(e)` is, or `JSON.stringify(e)` for an
object. -/
structure Properties where
  name : JsValue
  message : JsValue
  stack : JsValue
  eddyqKind : JsValue
  eddyqDelayMs : JsValue
  text : JsString

/-- What a handler throws: an instance of `Error`, another object, or a primitive with its `String(e)`. -/
inductive Thrown
  | error (e : Properties)
  | object (e : Properties)
  | primitive (text : JsString)

/-- A literal of the source. -/
def ascii (s : List Char) : JsString := s.map fun c => .ofNat c.toNat

/-- Zero. -/
def Number.zero : Number := .finite (.ofNat 0 (by norm_num))

/-- `new CancelError(message)`. -/
def cancelError (message : JsString) (stack : JsValue) (text : JsString) : Thrown := .error {
  name := .string (ascii "CancelError".toList)
  message := .string message
  stack := stack
  eddyqKind := .string (ascii "cancel".toList)
  eddyqDelayMs := .undefined
  text := text }

/-- `new RetryError(message, { delayMs, inMs })`. -/
def retryError (message : JsString) (delayMs inMs : Option Number) (stack : JsValue) (text : JsString) : Thrown := .error {
  name := .string (ascii "RetryError".toList)
  message := .string message
  stack := stack
  eddyqKind := .string (ascii "retry".toList)
  eddyqDelayMs := .number ((delayMs <|> inMs).getD .zero)
  text := text }

def Number.truthy : Number → Bool
  | .nan => false
  | .infinity _ => true
  | .finite x => x.val ≠ 0

def JsValue.truthy : JsValue → Bool
  | .undefined => false
  | .null => false
  | .boolean b => b
  | .number x => x.truthy
  | .string s => s ≠ []

/-- `v || w`. -/
def JsValue.or (v w : JsValue) : JsValue := if v.truthy then v else w

/-- What `formatError` returns. -/
structure Envelope where
  name : JsValue
  message : JsValue
  stack : JsValue := .undefined
  directive : JsValue := .undefined
  delayMs : JsValue := .undefined

/-- `formatError`. -/
def formatError : Thrown → Envelope
  | .error e | .object e => {
    name := e.name.or (.string (ascii "Error".toList))
    message := e.message.or (.string e.text)
    stack := e.stack
    directive := e.eddyqKind
    delayMs := e.eddyqDelayMs }
  | .primitive text => { name := .string (ascii "Error".toList), message := .string text }

/-- `JSON.stringify` of a field; `undefined` is left out. -/
def JsValue.stringify : JsValue → Option (List Char)
  | .undefined => none
  | .null => some (Value.print .null)
  | .boolean b => some (Value.print (.bool b))
  | .number (.finite x) => some (numberText x.val)
  | .number _ => some (Value.print .null)
  | .string s => some (quotePoints (codePoints s))

/-- The fields in their order. -/
def Envelope.fields (e : Envelope) : List (List Char × JsValue) :=
  [("name".toList, e.name), ("message".toList, e.message), ("stack".toList, e.stack),
    ("directive".toList, e.directive), ("delayMs".toList, e.delayMs)]

/-- `JSON.stringify(envelope)`. -/
def Envelope.stringify (e : Envelope) : List Char := printObject (members JsValue.stringify e.fields)

/-- `ENVELOPE_PREFIX`. -/
def envelopePrefix : List Char := "[eddyq:err]".toList

/-- The message of the error that is thrown again. -/
def rethrow (t : Thrown) : List Char := envelopePrefix ++ (formatError t).stringify

/-- `wrapHandler`: a queue that is shut down throws its `AbortError`, and `undefined` becomes `null`. -/
def wrapHandler (abortedWith : Option Thrown) (result : Except Thrown JsValue) : Except (List Char) JsValue :=
  match abortedWith, result with
  | some err, _ => .error (rethrow err)
  | none, .error e => .error (rethrow e)
  | none, .ok .undefined => .ok .null
  | none, .ok v => .ok v

/-! ## The worker -/

/-- `HandlerFailure`. -/
structure HandlerFailure where
  message : List Char
  name : Option (List Char) := none
  stack : Option (List Char) := none
  directive : Option Directive := none

/-- `JsErrorEnvelope`. -/
structure JsErrorEnvelope where
  message : List Char
  name : Option (List Char)
  stack : Option (List Char)
  directive : Option (List Char)
  delayMs : Option UInt64

/-- An `Option<u64>`: a token with a sign, a fraction or an exponent is not an integer. -/
def readOptU64 : Option Value → Option (Option UInt64)
  | none => some none
  | some .null => some none
  | some (.num token) => (readNat token).bind fun n => if n < 2 ^ 64 then some (some (.ofNat n)) else none
  | _ => none

/-- The `Deserialize` of `JsErrorEnvelope`, from an object or an array. -/
def deserializeEnvelope : Value → Option JsErrorEnvelope
  | .obj fields => do
    let message ← readString (← getField "message".toList fields)
    let name ← readOptString (← getField "name".toList fields)
    let stack ← readOptString (← getField "stack".toList fields)
    let directive ← readOptString (← getField "directive".toList fields)
    let delayMs ← readOptU64 (← getField "delayMs".toList fields)
    some { message, name, stack, directive, delayMs }
  | .arr [message, name, stack, directive, delayMs] => do
    let message ← readString message
    let name ← readOptString name
    let stack ← readOptString stack
    let directive ← readOptString directive
    let delayMs ← readOptU64 delayMs
    some { message, name, stack, directive, delayMs }
  | _ => none

/-- What follows the first occurrence. -/
def afterMarker (marker : List Char) : List Char → Option (List Char)
  | [] => if marker = [] then some [] else none
  | c :: l => if marker.isPrefixOf (c :: l) then some ((c :: l).drop marker.length) else afterMarker marker l

/-- `strip_prefix(p).unwrap_or`. -/
def stripPrefix (p l : List Char) : List Char := if p.isPrefixOf l then l.drop p.length else l

/-- The failure of an envelope. -/
def JsErrorEnvelope.failure (env : JsErrorEnvelope) : HandlerFailure where
  message := env.message
  name := env.name
  stack := env.stack
  directive :=
    if env.directive = some "cancel".toList then some .cancel
    else if env.directive = some "retry".toList then some (.retry (env.delayMs.getD 0))
    else none

/-- `parse_js_failure`. -/
def parseJsFailure (reason : List Char) : HandlerFailure :=
  match (afterMarker envelopePrefix reason).bind fun json => (fromStr json).bind deserializeEnvelope with
  | some env => env.failure
  | none => { message := stripPrefix "GenericFailure, ".toList reason }

/-! ## What is asked for -/

/-- The text of a string in Rust. -/
def IsText (s : JsString) (l : List Char) : Prop := codePoints s = l.map .scalar

instance (s : JsString) (l : List Char) : Decidable (IsText s l) := inferInstanceAs (Decidable (_ = _))

/-- A string without lone surrogates. -/
def WellFormed (s : JsString) : Prop := ∃ l, IsText s l

/-- What a thrown value is called and says; a primitive is an `Error` that says its text. -/
def Thrown.Says (name message : JsString) (stack : Option JsString) : Thrown → Prop
  | .error e | .object e => e.name = .string name ∧ name ≠ [] ∧ e.message = .string message ∧ message ≠ [] ∧
    e.stack = stack.elim .undefined .string
  | .primitive text => name = ascii "Error".toList ∧ message = text ∧ stack = none

def Thrown.kind : Thrown → JsValue
  | .error e | .object e => e.eddyqKind
  | .primitive _ => .undefined

def Thrown.delay : Thrown → JsValue
  | .error e | .object e => e.eddyqDelayMs
  | .primitive _ => .undefined

/-- The whole milliseconds that are nearest to a delay, not below 0; no number is near `NaN` or infinity. -/
def Requested (n : ℕ) : JsValue → Prop
  | .undefined => n = 0
  | .null => n = 0
  | .number (.finite x) => (n : ℤ) = max (round x.val) 0
  | .number (.infinity neg) => neg = true ∧ n = 0
  | _ => False

/-- The directive that a thrown value asks for. -/
def Asked (kind delay : JsValue) : Option Directive → Prop
  | some .cancel => kind = .string (ascii "cancel".toList)
  | some (.retry ms) => kind = .string (ascii "retry".toList) ∧ Requested ms.toNat delay
  | none => kind ≠ .string (ascii "cancel".toList) ∧ kind ≠ .string (ascii "retry".toList)

/-- The failure is what was thrown. -/
structure Carried (t : Thrown) (name message : JsString) (stack : Option JsString) (f : HandlerFailure) : Prop where
  name : ∃ l, f.name = some l ∧ IsText name l
  message : IsText message f.message
  stack : f.stack = none ∧ stack = none ∨ ∃ s l, stack = some s ∧ f.stack = some l ∧ IsText s l
  directive : Asked t.kind t.delay f.directive

/-- The directive is a string, or JSON leaves it out or writes `null`. -/
def KindFits : JsValue → Prop
  | .undefined => True
  | .null => True
  | .boolean _ => False
  | .number (.finite _) => False
  | .number _ => True
  | .string s => WellFormed s

/-- The delay is left out, `null` or the digits of a `u64`; for a retry it is that number of milliseconds. -/
def DelayFits (retry : Prop) : JsValue → Prop
  | .undefined => True
  | .null => True
  | .boolean _ => False
  | .number .nan => ¬ retry
  | .number (.infinity neg) => retry → neg = true
  | .number (.finite x) => ∃ n : ℕ, n < 2 ^ 64 ∧ numberText x.val = Nat.toDigits 10 n ∧ (retry → x.val = n)
  | .string _ => False

/-- The condition on what is thrown. -/
structure Fits (t : Thrown) (name message : JsString) (stack : Option JsString) : Prop where
  name : WellFormed name
  message : WellFormed message
  stack : ∀ s, stack = some s → WellFormed s
  kind : KindFits t.kind
  delay : DelayFits (t.kind = .string (ascii "retry".toList)) t.delay

/-! ## What is read -/

/-- A string without its lone surrogates. -/
def scalars (s : List CodePoint) : List Char := s.filterMap fun
  | .scalar c => some c
  | .surrogate _ => none

theorem scalars_map (l : List Char) : scalars (l.map .scalar) = l := by
  rw [scalars, List.filterMap_map]
  exact List.filterMap_some

theorem isText_scalars {s : JsString} (h : WellFormed s) : IsText s (scalars (codePoints s)) := by
  obtain ⟨l, hl⟩ := h
  rw [IsText] at hl ⊢
  rw [hl, scalars_map]

/-- A string is well formed or has a lone surrogate. -/
theorem wellFormed_or (s : List CodePoint) : (∃ l : List Char, s = l.map .scalar) ∨ ∃ m, .surrogate m ∈ s := by
  induction s with
  | nil => exact .inl ⟨[], rfl⟩
  | cons p s ih =>
    cases p with
    | surrogate m => exact .inr ⟨m, List.mem_cons_self⟩
    | scalar c =>
      rcases ih with ⟨l, rfl⟩ | ⟨m, hm⟩
      · exact .inl ⟨c :: l, rfl⟩
      · exact .inr ⟨m, List.mem_cons_of_mem _ hm⟩

/-- The value that is read for a field, if its string is well formed. -/
def JsValue.toValue : JsValue → Option Value
  | .undefined => none
  | .null => some .null
  | .boolean b => some (.bool b)
  | .number (.finite x) => some (.num (numberText x.val))
  | .number _ => some .null
  | .string s => some (.str (scalars (codePoints s)))

def JsValue.WellFormed (v : JsValue) : Prop := ∀ s, v = .string s → Js.WellFormed s

theorem stringify_toValue {v : JsValue} (h : v.WellFormed) : v.stringify = v.toValue.map Value.print := by
  cases v with
  | number x => cases x <;> rfl
  | string s =>
    obtain ⟨l, hl⟩ := h s rfl
    rw [JsValue.stringify, JsValue.toValue, show codePoints s = l.map .scalar from hl, quotePoints_scalar, scalars_map]
    rfl
  | _ => rfl

theorem toValue_plain {v : JsValue} {w : Value} (h : v.toValue = some w) : w.depth = 0 ∧ ∀ t ∈ w.tokens, NumToken t := by
  cases v with
  | undefined => cases h
  | number x =>
    cases x with
    | finite x =>
      cases h
      exact ⟨rfl, fun t ht => List.mem_singleton.mp ht ▸ numToken_numberText x.val⟩
    | _ => cases h; exact ⟨rfl, nofun⟩
  | _ => cases h; exact ⟨rfl, nofun⟩

/-- The text of a field is refused where its string has a lone surrogate, and a plain value otherwise. -/
theorem stringify_cases {v : JsValue} {t : List Char} (h : v.stringify = some t) :
    ¬ v.WellFormed ∧ Refused t ∨ v.WellFormed ∧ Plain t := by
  by_cases hwf : v.WellFormed
  · rw [stringify_toValue hwf, Option.map_eq_some_iff] at h
    obtain ⟨w, hw, rfl⟩ := h
    exact .inr ⟨hwf, w, rfl, toValue_plain hw⟩
  · refine .inl ⟨hwf, ?_⟩
    cases v with
    | string s =>
      cases h
      rcases wellFormed_or (codePoints s) with hl | hm
      · exact absurd (fun s' hs' => by cases hs'; exact hl) hwf
      · exact refused_points (lone_codePoints s) hm
    | _ => exact absurd nofun hwf

/-- **An envelope** is read where its strings are well formed, and nowhere else. -/
theorem fromStr_stringify (e : Envelope) (h : ∀ f ∈ e.fields, f.2.WellFormed) :
    fromStr e.stringify = some (.obj (members JsValue.toValue e.fields)) := by
  have hmembers : ∀ l : List (List Char × JsValue), (∀ f ∈ l, f.2.WellFormed) →
      members JsValue.stringify l = (members JsValue.toValue l).map fun f => (f.1, f.2.print) := by
    intro l hl
    rw [members, members, List.map_filterMap]
    refine List.filterMap_congr fun f hf => ?_
    rw [stringify_toValue (hl f hf), Option.map_map, Option.map_map]
    rfl
  rw [Envelope.stringify, hmembers _ h]
  refine fromStr_plain fun m hm => ?_
  obtain ⟨f, -, hf⟩ := List.mem_filterMap.mp hm
  obtain ⟨w, hw, rfl⟩ := Option.map_eq_some_iff.mp hf
  exact toValue_plain hw

theorem fromStr_stringify_none (e : Envelope) {f : List Char × JsValue} (hf : f ∈ e.fields) (h : ¬ f.2.WellFormed) :
    fromStr e.stringify = none := by
  refine fromStr_refused (fun m hm => ?_) ?_
  · obtain ⟨g, -, hg⟩ := List.mem_filterMap.mp hm
    obtain ⟨t, ht, rfl⟩ := Option.map_eq_some_iff.mp hg
    exact (stringify_cases ht).imp (·.2) (·.2)
  · cases hs : f.2.stringify with
    | none =>
      refine absurd (fun s hs' => ?_) h
      rw [hs'] at hs
      cases hs
    | some t =>
      refine ⟨(f.1, t), List.mem_filterMap.mpr ⟨f, hf, by rw [hs]; rfl⟩, ?_⟩
      exact ((stringify_cases hs).resolve_right fun hwf => h hwf.1).2

/-- The struct that is read of an envelope. -/
theorem deserialize_fields (e : Envelope) : deserializeEnvelope (.obj (members JsValue.toValue e.fields)) = (do
    let message ← readString e.message.toValue
    let name ← readOptString e.name.toValue
    let stack ← readOptString e.stack.toValue
    let directive ← readOptString e.directive.toValue
    let delayMs ← readOptU64 e.delayMs.toValue
    some { message, name, stack, directive, delayMs }) := by
  have hnodup : (e.fields.map Prod.fst).Nodup := by
    show ["name".toList, "message".toList, "stack".toList, "directive".toList, "delayMs".toList].Nodup
    decide
  have hget (k : List Char) (v : JsValue) (h : (k, v) ∈ e.fields) := getField_members (f := JsValue.toValue) hnodup h
  dsimp only [deserializeEnvelope]
  rw [hget _ e.message (by simp [Envelope.fields]), hget _ e.name (by simp [Envelope.fields]),
    hget _ e.stack (by simp [Envelope.fields]), hget _ e.directive (by simp [Envelope.fields]),
    hget _ e.delayMs (by simp [Envelope.fields])]
  rfl

/-! ## The marker -/

/-- A marker that starts with what it has nowhere else is found where it stands first. -/
theorem afterMarker_append {c : Char} {m : List Char} (hc : c ∉ m) (tail : List Char) : ∀ pre : List Char,
    ¬ (c :: m) <:+: pre → afterMarker (c :: m) (pre ++ ((c :: m) ++ tail)) = some tail
  | [], _ => by
    have hpre : (c :: m).isPrefixOf (c :: (m ++ tail)) = true := List.isPrefixOf_iff_prefix.mpr ⟨tail, rfl⟩
    show afterMarker (c :: m) (c :: (m ++ tail)) = some tail
    rw [afterMarker, if_pos hpre]
    exact congrArg some List.drop_left
  | x :: pre, hpre => by
    have hnot : ¬ (c :: m).isPrefixOf (x :: (pre ++ ((c :: m) ++ tail))) = true := by
      intro h
      obtain ⟨u, hu⟩ := List.isPrefixOf_iff_prefix.mp h
      rcases List.append_eq_append_iff.mp (show (c :: m) ++ u = (x :: pre) ++ ((c :: m) ++ tail) from hu) with
        ⟨s, hs, -⟩ | ⟨s, hs, htail⟩
      · exact hpre (hs ▸ (List.prefix_append _ s).isInfix)
      · cases s with
        | nil => exact hpre (by rw [List.append_nil] at hs; rw [hs])
        | cons y s =>
          obtain rfl := (List.cons.inj htail).1
          exact hc ((List.cons.inj hs).2 ▸ List.mem_append_right _ List.mem_cons_self)
    show afterMarker (c :: m) (x :: (pre ++ ((c :: m) ++ tail))) = some tail
    rw [afterMarker, if_neg hnot]
    exact afterMarker_append hc tail pre fun h => hpre (h.trans (List.suffix_cons x pre).isInfix)

/-! ## What gets through -/

theorem toNat_char {n : ℕ} (h : n.isValidChar) : (Char.ofNat n).toNat = n := by
  rw [Char.ofNat, dif_pos h]
  rfl

/-- A unit of ASCII stands for itself. -/
theorem cons_of_codePoints {s : JsString} {c : Char} (hc : c.toNat < 0x80) {ps : List CodePoint}
    (h : codePoints s = .scalar c :: ps) : ∃ r, s = .ofNat c.toNat :: r ∧ codePoints r = ps := by
  have hunit {u : UInt16} (hu : codePoint u = .scalar c) : u = .ofNat c.toNat := by
    unfold codePoint at hu
    split at hu
    · cases hu
    · next hsur =>
      have hu16 := u.toNat_lt
      simp only [isLead, isTrail, Bool.or_eq_true, Bool.and_eq_true, decide_eq_true_eq] at hsur
      have hval : c.toNat = u.toNat := by
        rw [← CodePoint.scalar.inj hu, toNat_char (by omega)]
      rw [hval, UInt16.ofNat_toNat]
  cases s with
  | nil => cases h
  | cons u s =>
    cases s with
    | nil => exact ⟨[], by rw [hunit (List.cons.inj h).1], (List.cons.inj h).2⟩
    | cons v s =>
      unfold codePoints at h
      split at h
      · next hpair =>
        simp only [isLead, isTrail, Bool.and_eq_true, decide_eq_true_eq] at hpair
        have hval := congrArg Char.toNat (CodePoint.scalar.inj (List.cons.inj h).1)
        rw [toNat_char (by omega)] at hval
        omega
      · exact ⟨v :: s, by rw [hunit (List.cons.inj h).1], (List.cons.inj h).2⟩

/-- A string that has the text of a literal is the literal. -/
theorem eq_ascii : ∀ {l : List Char}, (∀ c ∈ l, c.toNat < 0x80) → ∀ {s : JsString}, IsText s l → s = ascii l
  | [], _, [], _ => rfl
  | [], _, [u], h => by cases h
  | [], _, u :: v :: s, h => by
    unfold IsText codePoints at h
    split at h <;> cases h
  | c :: l, hl, s, h => by
    obtain ⟨r, rfl, hr⟩ := cons_of_codePoints (hl c List.mem_cons_self) h
    rw [eq_ascii (fun c hc => hl c (List.mem_cons_of_mem _ hc)) hr]
    rfl

/-- The texts that are read for the directive and the delay. -/
def kindText : JsValue → Option (List Char)
  | .string s => some (scalars (codePoints s))
  | _ => none

def delayRead : JsValue → Option UInt64
  | .number (.finite x) => (readNat (numberText x.val)).map .ofNat
  | _ => none

theorem readOptString_kind {k : JsValue} (h : KindFits k) : readOptString k.toValue = some (kindText k) := by
  cases k with
  | boolean b => exact h.elim
  | number x =>
    cases x with
    | finite x => exact h.elim
    | _ => rfl
  | _ => rfl

theorem kindFits_of_read {k : JsValue} (hwf : k.WellFormed) {s : Option (List Char)} (h : readOptString k.toValue = some s) :
    KindFits k := by
  cases k with
  | boolean b => cases h
  | number x =>
    cases x with
    | finite x => cases h
    | _ => trivial
  | string s => exact hwf s rfl
  | _ => trivial

theorem readOptU64_delay {d : JsValue} (h : DelayFits False d) : readOptU64 d.toValue = some (delayRead d) := by
  cases d with
  | boolean b => exact h.elim
  | string s => exact h.elim
  | number x =>
    cases x with
    | finite x =>
      obtain ⟨n, hn, htext, -⟩ := h
      have hread := readNat_eq_some.mpr htext
      show (readNat (numberText x.val)).bind _ = some ((readNat (numberText x.val)).map _)
      rw [hread, Option.bind_some, if_pos hn]
      rfl
    | _ => rfl
  | _ => rfl

theorem delayFits_of_read {d : JsValue} {n : Option UInt64} (h : readOptU64 d.toValue = some n) : DelayFits False d := by
  cases d with
  | boolean b => cases h
  | string s => cases h
  | number x =>
    cases x with
    | finite x =>
      have h : (readNat (numberText x.val)).bind _ = some n := h
      obtain ⟨m, hm, h⟩ := Option.bind_eq_some_iff.mp h
      split at h
      · next hlt => exact ⟨m, hlt, readNat_eq_some.mp hm, False.elim⟩
      · cases h
    | nan => exact not_false
    | infinity neg => exact False.elim
  | _ => trivial

/-- The number that is read is the one that is asked for. -/
theorem requested_iff {d : JsValue} (h : DelayFits False d) :
    Requested ((delayRead d).getD 0).toNat d ↔ DelayFits True d := by
  cases d with
  | undefined => exact iff_of_true rfl trivial
  | null => exact iff_of_true rfl trivial
  | boolean b => exact h.elim
  | string s => exact h.elim
  | number x =>
    cases x with
    | nan => exact iff_of_false id (not_not_intro trivial)
    | infinity neg => exact ⟨fun h _ => h.1, fun h => ⟨h trivial, rfl⟩⟩
    | finite x =>
      obtain ⟨n, hn, htext, -⟩ := h
      have hread : (delayRead (.number (.finite x))).getD 0 = .ofNat n := by
        show ((readNat (numberText x.val)).map UInt64.ofNat).getD 0 = _
        rw [readNat_eq_some.mpr htext]
        rfl
      rw [hread, UInt64.toNat_ofNat_of_lt' hn]
      constructor
      · intro hreq
        exact ⟨n, hn, htext, fun _ => natCast_of_numberText x.rounded htext hreq⟩
      · rintro ⟨m, -, hm, hval⟩
        obtain rfl := toDigits_inj (htext.symm.trans hm)
        show (n : ℤ) = max (round x.val) 0
        rw [hval trivial, round_natCast, max_eq_left (Int.natCast_nonneg n)]

section Carried

variable {t : Thrown} {name message : JsString} {stack : Option JsString}

/-- The envelope has the fields of what was thrown. -/
theorem formatError_text (h : t.Says name message stack) : formatError t =
    { name := .string name, message := .string message, stack := stack.elim .undefined .string,
      directive := t.kind, delayMs := t.delay } := by
  cases t with
  | primitive text =>
    obtain ⟨rfl, rfl, rfl⟩ := h
    rfl
  | _ e =>
    obtain ⟨hname, hne, hmessage, hne', hstack⟩ := h
    simp only [formatError, hname, hmessage, hstack, JsValue.or, JsValue.truthy, Thrown.kind, Thrown.delay]
    rw [if_pos (decide_eq_true hne), if_pos (decide_eq_true hne')]

/-- The strings are read, and so are the directive and the delay. -/
structure Readable (t : Thrown) (name message : JsString) (stack : Option JsString) : Prop where
  name : WellFormed name
  message : WellFormed message
  stack : ∀ s, stack = some s → WellFormed s
  kind : KindFits t.kind
  delay : DelayFits False t.delay

theorem wellFormed_string {s : JsString} : (JsValue.string s).WellFormed ↔ WellFormed s :=
  ⟨fun h => h s rfl, fun h s' hs' => by cases hs'; exact h⟩

theorem wellFormed_stack : (stack.elim JsValue.undefined JsValue.string).WellFormed ↔ ∀ s, stack = some s → WellFormed s := by
  cases stack with
  | none => exact ⟨fun _ => nofun, fun _ => nofun⟩
  | some s => exact wellFormed_string.trans ⟨fun h s' hs' => by cases hs'; exact h, fun h => h s rfl⟩

theorem KindFits.wellFormed {k : JsValue} (h : KindFits k) : k.WellFormed := by
  cases k with
  | string s => exact wellFormed_string.mpr h
  | _ => nofun

theorem DelayFits.wellFormed {retry : Prop} {d : JsValue} (h : DelayFits retry d) : d.WellFormed := by
  cases d with
  | string s => exact h.elim
  | _ => nofun

theorem afterMarker_rethrow {pre : List Char} (hpre : ¬ envelopePrefix <:+: pre) :
    afterMarker envelopePrefix (pre ++ rethrow t) = some (formatError t).stringify :=
  afterMarker_append (c := '[') (m := "eddyq:err]".toList) (by decide) _ pre hpre

/-- **What is read** of a thrown value. -/
theorem parseJsFailure_readable (h : t.Says name message stack) {pre : List Char} (hpre : ¬ envelopePrefix <:+: pre)
    (hread : Readable t name message stack) : parseJsFailure (pre ++ rethrow t) =
      JsErrorEnvelope.failure {
        message := scalars (codePoints message)
        name := some (scalars (codePoints name))
        stack := stack.map fun s => scalars (codePoints s)
        directive := kindText t.kind
        delayMs := delayRead t.delay } := by
  have hfields := fromStr_stringify (formatError t) (by
    rw [formatError_text h]
    simp only [Envelope.fields, List.forall_mem_cons]
    exact ⟨wellFormed_string.mpr hread.name, wellFormed_string.mpr hread.message, wellFormed_stack.mpr hread.stack,
      hread.kind.wellFormed, hread.delay.wellFormed, nofun⟩)
  rw [parseJsFailure, afterMarker_rethrow hpre, Option.bind_some, hfields, Option.bind_some, deserialize_fields,
    formatError_text h]
  dsimp only
  rw [readOptString_kind hread.kind, readOptU64_delay hread.delay]
  cases stack <;> rfl

/-- Anything else loses its name. -/
theorem parseJsFailure_unreadable (h : t.Says name message stack) {pre : List Char} (hpre : ¬ envelopePrefix <:+: pre)
    (hread : ¬ Readable t name message stack) : (parseJsFailure (pre ++ rethrow t)).name = none := by
  rw [parseJsFailure, afterMarker_rethrow hpre, Option.bind_some]
  cases henv : (fromStr (formatError t).stringify).bind deserializeEnvelope with
  | none => rfl
  | some env =>
    refine absurd ?_ hread
    by_cases hwf : ∀ f ∈ (formatError t).fields, f.2.WellFormed
    · rw [fromStr_stringify _ hwf, Option.bind_some, deserialize_fields] at henv
      rw [formatError_text h] at hwf henv
      simp only [Envelope.fields, List.forall_mem_cons] at hwf
      obtain ⟨hname, hmessage, hstack, hkind, -, -⟩ := hwf
      simp only [Option.bind_eq_bind, Option.bind_eq_some_iff] at henv
      obtain ⟨_, -, _, -, _, -, _, hk, _, hd, -⟩ := henv
      exact ⟨wellFormed_string.mp hname, wellFormed_string.mp hmessage, wellFormed_stack.mp hstack,
        kindFits_of_read hkind hk, delayFits_of_read hd⟩
    · simp only [not_forall] at hwf
      obtain ⟨f, hf, hbad⟩ := hwf
      rw [fromStr_stringify_none _ hf hbad] at henv
      cases henv

/-- A literal is the text of one string. -/
theorem kindText_eq {k : JsValue} (hk : KindFits k) {l : List Char} (hl : l.all (·.toNat < 0x80))
    (hascii : codePoints (ascii l) = l.map .scalar) : kindText k = some l ↔ k = .string (ascii l) := by
  constructor
  · intro h
    cases k with
    | string s =>
      have htext := isText_scalars (show WellFormed s from hk)
      rw [Option.some.inj h] at htext
      have hascii : ∀ c ∈ l, c.toNat < 0x80 := by simpa using hl
      rw [eq_ascii hascii htext]
    | _ => cases h
  · rintro rfl
    rw [kindText, hascii, scalars_map]

/-- **The directive** is the one that is asked for if the delay is. -/
theorem asked_iff (hread : Readable t name message stack) (env : JsErrorEnvelope) (hdirective : env.directive = kindText t.kind)
    (hdelay : env.delayMs = delayRead t.delay) : Asked t.kind t.delay env.failure.directive ↔
      DelayFits (t.kind = .string (ascii "retry".toList)) t.delay := by
  have hcancel := kindText_eq hread.kind (l := "cancel".toList) (by decide) (by decide)
  have hretry := kindText_eq hread.kind (l := "retry".toList) (by decide) (by decide)
  have hne : ascii "cancel".toList ≠ ascii "retry".toList := by decide
  rw [JsErrorEnvelope.failure, hdirective, hdelay]
  dsimp only
  split
  · next h =>
    have h := hcancel.mp h
    rw [h, eq_false fun heq => hne (JsValue.string.inj heq)]
    exact iff_of_true rfl hread.delay
  split
  · next _ h =>
    have h := hretry.mp h
    rw [h, eq_self, ← requested_iff hread.delay]
    exact ⟨And.right, fun h => ⟨rfl, h⟩⟩
  · next h h' =>
    rw [eq_false fun heq => h' (hretry.mpr heq)]
    exact iff_of_true ⟨fun heq => h (hcancel.mpr heq), fun heq => h' (hretry.mpr heq)⟩ hread.delay

theorem Fits.readable (h : Fits t name message stack) : Readable t name message stack := by
  refine ⟨h.name, h.message, h.stack, h.kind, ?_⟩
  have hdelay := h.delay
  cases hd : t.delay with
  | number x =>
    rw [hd] at hdelay
    cases x with
    | nan => exact not_false
    | infinity neg => exact False.elim
    | finite x =>
      obtain ⟨n, hn, htext, -⟩ := hdelay
      exact ⟨n, hn, htext, False.elim⟩
  | _ => rw [hd] at hdelay; exact hdelay

/-- What is thrown is carried where it fits. -/
theorem carried_parse_iff (h : t.Says name message stack) {pre : List Char} (hpre : ¬ envelopePrefix <:+: pre) :
    Carried t name message stack (parseJsFailure (pre ++ rethrow t)) ↔ Fits t name message stack := by
  by_cases hread : Readable t name message stack
  · rw [parseJsFailure_readable h hpre hread]
    constructor
    · intro hc
      exact ⟨hread.name, hread.message, hread.stack, hread.kind, (asked_iff hread _ rfl rfl).mp hc.directive⟩
    · intro hf
      refine ⟨⟨_, rfl, isText_scalars hf.name⟩, isText_scalars hf.message, ?_, (asked_iff hread _ rfl rfl).mpr hf.delay⟩
      cases stack with
      | none => exact .inl ⟨rfl, rfl⟩
      | some s => exact .inr ⟨s, _, rfl, rfl, isText_scalars (hf.stack s rfl)⟩
  · refine iff_of_false (fun hc => ?_) fun hf => hread hf.readable
    obtain ⟨l, hl, -⟩ := hc.name
    rw [parseJsFailure_unreadable h hpre hread] at hl
    cases hl

end Carried

/-- The delays of a `RetryError` that get through. -/
def Number.Fits : Number → Prop
  | .nan => False
  | .infinity neg => neg = true
  | .finite x => ∃ n : ℕ, n < 2 ^ 64 ∧ numberText x.val = Nat.toDigits 10 n ∧ x.val = n

/-- A `CancelError` only needs its strings to be well formed. -/
theorem fits_cancelError (message : JsString) (stack : Option JsString) (text : JsString) :
    Fits (cancelError message (stack.elim .undefined .string) text) (ascii "CancelError".toList) message stack ↔
      WellFormed message ∧ ∀ s, stack = some s → WellFormed s :=
  ⟨fun h => ⟨h.message, h.stack⟩, fun ⟨hm, hs⟩ =>
    ⟨⟨"CancelError".toList, by decide⟩, hm, hs, ⟨"cancel".toList, by decide⟩, trivial⟩⟩

/-- A `RetryError` needs its delay to fit, too. -/
theorem fits_retryError (message : JsString) (delayMs inMs : Option Number) (stack : Option JsString) (text : JsString) :
    Fits (retryError message delayMs inMs (stack.elim .undefined .string) text) (ascii "RetryError".toList) message stack ↔
      WellFormed message ∧ (∀ s, stack = some s → WellFormed s) ∧ ((delayMs <|> inMs).getD .zero).Fits := by
  have hdelay (x : Number) : DelayFits (JsValue.string (ascii "retry".toList) = .string (ascii "retry".toList)) (.number x) ↔
      x.Fits := by
    rw [eq_self]
    cases x with
    | nan => exact not_true
    | infinity neg => exact true_imp_iff
    | finite x => exact exists_congr fun n => by rw [true_imp_iff]
  refine ⟨fun h => ⟨h.message, h.stack, (hdelay _).mp h.delay⟩, fun ⟨hm, hs, hd⟩ => ?_⟩
  exact ⟨⟨"RetryError".toList, by decide⟩, hm, hs, ⟨"retry".toList, by decide⟩, (hdelay _).mpr hd⟩

/-- Whole milliseconds below `2^53` fit. -/
theorem fits_ofNat (n : ℕ) (h : n < 2 ^ 53) : (Number.finite (.ofNat n h)).Fits :=
  ⟨n, lt_trans h (by norm_num), numberText_natCast h, rfl⟩

/-- **The envelope**: whatever napi puts before it, the failure is what was thrown exactly where it `Fits`. -/
theorem envelope_carried_iff (t : Thrown) (name message : JsString) (stack : Option JsString)
    (h : t.Says name message stack) (abortedWith : Option Thrown) (result : Except Thrown JsValue)
    (hthrown : abortedWith = some t ∨ abortedWith = none ∧ result = .error t) (m : List Char)
    (hm : wrapHandler abortedWith result = .error m) (pre : List Char) (hpre : ¬ envelopePrefix <:+: pre) :
    Carried t name message stack (parseJsFailure (pre ++ m)) ↔ Fits t name message stack := by
  have hmessage : m = rethrow t := by
    rcases hthrown with rfl | ⟨rfl, rfl⟩
    · exact (Except.error.inj hm).symm
    · exact (Except.error.inj hm).symm
  rw [hmessage]
  exact carried_parse_iff h hpre

/-- `new RetryError("rate limited", { delayMs: x })` without a stack. -/
def rateLimited (x : Number) : Thrown := retryError (ascii "rate limited".toList) (some x) none .undefined []

theorem says_rateLimited (x : Number) :
    (rateLimited x).Says (ascii "RetryError".toList) (ascii "rate limited".toList) none :=
  ⟨rfl, by decide, rfl, by decide, rfl⟩

theorem fits_rateLimited {x : Number} :
    Fits (rateLimited x) (ascii "RetryError".toList) (ascii "rate limited".toList) none ↔ x.Fits :=
  (fits_retryError _ _ _ none _).trans ⟨fun h => h.2.2, fun h => ⟨⟨"rate limited".toList, by decide⟩, nofun, h⟩⟩

/-- A minute, as napi reports it. -/
theorem envelope_carried_minute :
    Carried (rateLimited (.finite (.ofNat 60000 (by decide)))) (ascii "RetryError".toList) (ascii "rate limited".toList)
      none (parseJsFailure ("GenericFailure, Error: ".toList ++
        rethrow (rateLimited (.finite (.ofNat 60000 (by decide)))))) :=
  (envelope_carried_iff _ _ _ none (says_rateLimited _) none (.error (rateLimited _)) (.inr ⟨rfl, rfl⟩) _ rfl
    "GenericFailure, Error: ".toList (by decide)).mpr (fits_rateLimited.mpr (fits_ofNat 60000 (by decide)))

/-- Half a millisecond. -/
def half : Double where
  val := 1 / 2
  rounded := by decide +kernel
  finite := by
    rw [abs_of_pos one_half_pos]
    exact lt_of_lt_of_le one_half_lt_one (one_le_pow₀ one_le_two)

/-- `new RetryError("rate limited", { delayMs: 0.5 })` is not retried as it asks. -/
theorem half_lost : ¬ ∀ t name message stack, t.Says name message stack → ∀ pre, ¬ envelopePrefix <:+: pre →
    Carried t name message stack (parseJsFailure (pre ++ rethrow t)) := by
  intro h
  have hcarried := h _ _ _ _ (says_rateLimited (.finite half)) "Error: ".toList (by decide)
  obtain ⟨n, -, -, hn⟩ := fits_rateLimited.mp ((carried_parse_iff (says_rateLimited _) (by decide)).mp hcarried)
  have hn : (1 / 2 : ℚ) = n := hn
  have : (1 : ℚ) = (2 * n : ℕ) := by push_cast; linarith
  have : 1 = 2 * n := by exact_mod_cast this
  omega

end Eddyq.Js
