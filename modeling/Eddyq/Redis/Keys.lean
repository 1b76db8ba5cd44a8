import Eddyq.Globs
import Eddyq.Lib.Double
import Eddyq.Lib.Templates
import Eddyq.Redis.Bulk
import Eddyq.Redis.Cjson

/-!
# Keys of a line

Every key is the line, a fixed text and what a caller put in: a job id, a name, or nothing. The texts leave no key that two builders
share (`builders_unambiguous`), whatever the names are: a job id has no colon, and no other two builders agree at both ends. What
can be lost is the id itself. An id that comes as a string keeps its digits, but `eddyq_enqueue` concatenates the number that `INCR`
returned, which has 14 significant digits. `key_read_iff` says that this is all.
-/

namespace Eddyq.Redis

open Lib Lib.Json

/-! ## Key builders -/

/-- A string of Lua. -/
abbrev LuaString := List UInt8

/-- A job id as a builder takes it: the decimal text of an argument or of a member, or the number that `INCR` returns. -/
inductive IdArg
  | text (id : ℤ)
  | number (id : ℤ)
  deriving DecidableEq

namespace IdArg

/-- The id that is meant. -/
def id : IdArg → ℤ
  | text id => id
  | number id => id

/-- What `..` makes of it. A number is a double, and is written by `%.14g`. -/
def string : IdArg → LuaString
  | text id => bytes (intText id)
  | number id => bytes (tostring (nearest id))

end IdArg

/-- What a builder is applied to besides the line. -/
inductive Arg
  | nothing
  | id (i : IdArg)
  | name (s : LuaString)
  deriving DecidableEq

def Arg.string : Arg → LuaString
  | nothing => []
  | id i => i.string
  | name s => s

/-- Which of them a builder takes. -/
inductive Hole
  | nothing
  | id
  | name
  deriving DecidableEq

def Hole.Takes : Hole → Arg → Prop
  | nothing, .nothing => True
  | id, .id _ => True
  | name, .name _ => True
  | _, _ => False

/-- A function `prefix .. head .. argument .. tail`. -/
structure Builder where
  head : String
  hole : Hole
  tail : String := ""
  deriving DecidableEq

/-- The function. -/
def Builder.text (b : Builder) (line : LuaString) (a : Arg) : LuaString := line ++ bytes b.head ++ a.string ++ bytes b.tail

def jobkey : Builder := { head := ":job:", hole := .id }
def errkey : Builder := { head := ":job:", hole := .id, tail := ":errors" }
def waitkey : Builder := { head := ":wait:", hole := .name }
def delayedkey : Builder := { head := ":delayed", hole := .nothing }
def activekey : Builder := { head := ":active", hole := .nothing }
def completedkey : Builder := { head := ":completed", hole := .nothing }
def failedkey : Builder := { head := ":failed", hole := .nothing }
def cancelledkey : Builder := { head := ":cancelled", hole := .nothing }
def queuesetkey : Builder := { head := ":queue:", hole := .name }
def kindsetkey : Builder := { head := ":kind:", hole := .name }
def tagsetkey : Builder := { head := ":tag:", hole := .name }
def uniquekey : Builder := { head := ":unique:", hole := .name }
def leaderkey : Builder := { head := ":leader:", hole := .name }
def wakeupchan : Builder := { head := ":wakeup", hole := .nothing }
def resignchan : Builder := { head := ":resign", hole := .nothing }
def groupmetakey : Builder := { head := ":group:", hole := .name, tail := ":meta" }
def grouprunkey : Builder := { head := ":group:", hole := .name, tail := ":running" }
def groupsetkey : Builder := { head := ":groups", hole := .nothing }
def queueseenkey : Builder := { head := ":queues:seen", hole := .nothing }
def grouprulekey : Builder := { head := ":group_rules", hole := .nothing }
def nqmetakey : Builder := { head := ":nq:", hole := .name, tail := ":meta" }
def nqrunkey : Builder := { head := ":nq:", hole := .name, tail := ":running" }
def nqsetkey : Builder := { head := ":nqs", hole := .nothing }
def nqcompletedkey : Builder := { head := ":nq:", hole := .name, tail := ":completed" }
def nqfailedkey : Builder := { head := ":nq:", hole := .name, tail := ":failed" }
def nqscheduledkey : Builder := { head := ":nq:", hole := .name, tail := ":scheduled" }
def nqcancelledkey : Builder := { head := ":nq:", hole := .name, tail := ":cancelled" }
def schedulekey : Builder := { head := ":schedules", hole := .nothing }
def scheduleidxkey : Builder := { head := ":schedules:idx", hole := .nothing }
def schedulenextkey : Builder := { head := ":schedules:next", hole := .nothing }
def idgenkey : Builder := { head := ":idgen", hole := .nothing }

/-- The key builders of `library.lua`. -/
def builders : List Builder :=
  [jobkey, errkey, waitkey, delayedkey, activekey, completedkey, failedkey, cancelledkey, queuesetkey, kindsetkey, tagsetkey,
    uniquekey, leaderkey, wakeupchan, resignchan, groupmetakey, grouprunkey, groupsetkey, queueseenkey, grouprulekey, nqmetakey,
    nqrunkey, nqsetkey, nqcompletedkey, nqfailedkey, nqscheduledkey, nqcancelledkey, schedulekey, scheduleidxkey,
    schedulenextkey, idgenkey]

/-- An application of a builder. -/
structure Key where
  builder : Builder
  known : builder ∈ builders
  arg : Arg
  takes : builder.hole.Takes arg

namespace Key

/-- The key that Redis sees. -/
def text (line : LuaString) (k : Key) : LuaString := k.builder.text line k.arg

end Key

/-! ## Templates -/

/-- What may stand in a hole: an id has no colon. -/
def Hole.allowed : Hole → UInt8 → Bool
  | nothing, _ => false
  | id, b => b ≠ ':'.toUInt8
  | name, _ => true

/-- What a builder puts after the line. -/
def Builder.template (b : Builder) : Template UInt8 := ⟨bytes b.head, bytes b.tail, b.hole.allowed⟩

theorem Builder.text_eq (b : Builder) (line : LuaString) (a : Arg) : b.text line a = line ++ b.template.fill a.string := by
  rw [text, template, Template.fill, List.append_assoc, List.append_assoc, List.append_assoc]

/-- **No two builders** have a text in common. -/
theorem builders_unambiguous : Template.Unambiguous Builder.template builders := by
  have htemplate : Builder.template = fun b => ⟨b.head.toList.flatMap String.utf8EncodeChar,
      b.tail.toList.flatMap String.utf8EncodeChar, b.hole.allowed⟩ := by
    funext b
    rw [Builder.template, bytes_eq, bytes_eq]
  rw [htemplate]
  decide +kernel

/-! ## Ids -/

section Ids

variable {m n : ℤ}

/-- A token of a number has no colon. -/
theorem colon_notMem {l : List Char} (h : NumToken l) : ':'.toUInt8 ∉ bytes (String.ofList l) := by
  rw [bytes_eq, String.toList_ofList, List.mem_flatMap]
  rintro ⟨c, hc, hb⟩
  have hcolon : c = ':' := utf8Encoding.own ':' c (by decide) hb
  have hchar := List.all_eq_true.mp h.2 c hc
  rw [hcolon] at hchar
  exact absurd hchar (by decide)

theorem IdArg.colon_notMem (i : IdArg) : ':'.toUInt8 ∉ i.string := by
  cases i with
  | text id => exact Redis.colon_notMem (numToken_decimal id)
  | number id => exact Redis.colon_notMem (numToken_g14 _)

/-- What is left of the digits of a number. -/
def kept (n : ℤ) : ℤ := rounded14 (nearest n)

theorem kept_precise (h : Precise n) : kept n = n := by rw [kept, nearest_precise h, rounded14_small h]

theorem kept_imprecise (h : ¬ Precise n) : ¬ Precise (kept n) := by
  rw [Precise, kept, natAbs_rounded14]
  exact not_lt.mpr (round14_large (not_lt.mp (not_precise_nearest h)))

/-- **Digits get lost** only from `10^14` on. -/
theorem imprecise_of_kept_eq (hne : m ≠ n) (h : kept m = kept n) : ¬ Precise m ∧ ¬ Precise n := by
  by_cases hm : Precise m
  · have hn : Precise n := by
      by_contra hn
      exact kept_imprecise hn (h ▸ (kept_precise hm).symm ▸ hm)
    rw [kept_precise hm, kept_precise hn] at h
    exact absurd h hne
  · refine ⟨hm, fun hn => kept_imprecise hm ?_⟩
    rwa [h, kept_precise hn]

theorem text_string_iff : (IdArg.text m).string = (IdArg.text n).string ↔ m = n := by
  refine ⟨fun h => ?_, fun h => h ▸ rfl⟩
  have htext : intText m = intText n := bytes_injective h
  rw [← tonumber_intText m, htext, tonumber_intText]

theorem number_string_iff : (IdArg.number m).string = (IdArg.number n).string ↔ kept m = kept n := by
  rw [IdArg.string, IdArg.string, bytes_injective.eq_iff, tostring, tostring, String.ofList_inj, g14_eq_iff]
  rfl

/-- A number is written as its id if it has at most 14 digits. -/
theorem text_number_string_iff : (IdArg.text m).string = (IdArg.number n).string ↔ m = n ∧ Precise n := by
  rw [IdArg.string, IdArg.string, bytes_injective.eq_iff, intText, tostring, String.ofList_inj]
  by_cases hn : Precise n
  · rw [nearest_precise hn, g14_small hn, ← readInt_eq_some, readInt_eq_some.mpr rfl, Option.some.injEq]
    exact ⟨fun h => ⟨h, hn⟩, fun h => h.1⟩
  · refine iff_of_false (fun h => ?_) fun h => hn h.2
    have hread : readInt (g14 (nearest n)) = some m := readInt_eq_some.mpr h.symm
    rw [readInt_g14_large (not_lt.mp (not_precise_nearest hn))] at hread
    cases hread

end Ids

/-! ## Reading keys -/

/-- The arguments mean the same. -/
def Arg.Same : Arg → Arg → Prop
  | id i, id j => i.id = j.id
  | a, b => a = b

/-- Two ids as numbers that are not the same, but for the digits that are left of them. -/
def Arg.Rounds : Arg → Arg → Prop
  | id (.number m), id (.number n) => m ≠ n ∧ kept m = kept n
  | _, _ => False

namespace Key

/-- The same builder with the same arguments. -/
def Same (k k' : Key) : Prop := k.builder = k'.builder ∧ k.arg.Same k'.arg

/-- The same builder with ids that are rounded to one number. -/
def Rounds (k k' : Key) : Prop := k.builder = k'.builder ∧ k.arg.Rounds k'.arg

end Key

section Read

variable {line : LuaString} {k k' : Key}

/-- An argument that a builder takes fits its hole. -/
theorem Hole.fits : ∀ {h : Hole} {a : Arg}, h.Takes a → ∀ c ∈ a.string, h.allowed c = true
  | .nothing, .nothing, _, _, hc => nomatch hc
  | .id, .id i, _, c, hc => by
    have hne : c ≠ ':'.toUInt8 := fun he => i.colon_notMem (he ▸ hc)
    exact decide_eq_true hne
  | .name, .name _, _, _, _ => rfl

theorem Key.fits (k : Key) : k.builder.template.Fits k.arg.string := Hole.fits k.takes

/-- **A key** tells its builder and what stands in the hole. -/
theorem Key.text_eq_iff : k.text line = k'.text line ↔ k.builder = k'.builder ∧ k.arg.string = k'.arg.string := by
  refine ⟨fun heq => ?_, fun ⟨hb, ha⟩ => by rw [text, text, Builder.text, Builder.text, hb, ha]⟩
  rw [text, text, Builder.text_eq, Builder.text_eq] at heq
  exact builders_unambiguous.read k.known k'.known k.fits k'.fits (List.append_cancel_left heq)

/-- Two ids in a hole are the same id, or numbers that are rounded. -/
theorem IdArg.same_or_rounds : ∀ {i j : IdArg}, i.string = j.string → i.id = j.id ∨ (Arg.id i).Rounds (.id j)
  | .text _, .text _, heq => .inl (text_string_iff.mp heq)
  | .text _, .number _, heq => .inl (text_number_string_iff.mp heq).1
  | .number _, .text _, heq => .inl (text_number_string_iff.mp heq.symm).1.symm
  | .number m, .number n, heq => by
    by_cases hmn : m = n
    · exact .inl hmn
    · exact .inr ⟨hmn, number_string_iff.mp heq⟩

/-- What stands in the hole tells the argument, or numbers that are rounded. -/
theorem same_or_rounds : ∀ {h : Hole} {a a' : Arg}, h.Takes a → h.Takes a' → a.string = a'.string → a.Same a' ∨ a.Rounds a'
  | .nothing, .nothing, .nothing, _, _, _ => .inl rfl
  | .id, .id _, .id _, _, _, heq => IdArg.same_or_rounds heq
  | .name, .name _, .name _, _, _, heq => .inl (congrArg Arg.name heq)

theorem Arg.Rounds.string_eq : ∀ {a a' : Arg}, a.Rounds a' → a.string = a'.string ∧ ¬ a.Same a'
  | .id (.number _), .id (.number _), hr => ⟨number_string_iff.mpr hr.2, hr.1⟩

/-- **Two keys** are the same only if they have the same builder and the same arguments, unless both are of one builder for ids,
and the ids are numbers that lose the digits in which they differ. -/
theorem key_read_iff (line : LuaString) (k k' : Key) : (k.text line = k'.text line → k.Same k') ↔ ¬ k.Rounds k' := by
  constructor
  · rintro h ⟨hb, hr⟩
    obtain ⟨hstring, hne⟩ := hr.string_eq
    exact hne (h (Key.text_eq_iff.mpr ⟨hb, hstring⟩)).2
  · intro hr heq
    obtain ⟨hb, hstring⟩ := Key.text_eq_iff.mp heq
    rcases same_or_rounds k.takes (hb ▸ k'.takes) hstring with hs | hs
    · exact ⟨hb, hs⟩
    · exact absurd ⟨hb, hs⟩ hr

/-- The key that `eddyq_enqueue` writes a job to: its id is the number that `INCR` returned. -/
def enqueuedKey (id : ℤ) : Key := ⟨jobkey, by decide, .id (.number id), trivial⟩

/-- The key that the other functions read it from: its id is a member of a set or an argument. -/
def memberKey (id : ℤ) : Key := ⟨jobkey, by decide, .id (.text id), trivial⟩

/-- The ids that are rounded to `10^14`. -/
theorem large_ids_collide :
    (enqueuedKey (10 ^ 14)).text (bytes "\x7bmain\x7d") = (enqueuedKey (10 ^ 14 + 1)).text (bytes "\x7bmain\x7d") ∧
    ¬ (enqueuedKey (10 ^ 14)).Same (enqueuedKey (10 ^ 14 + 1)) := by
  have hkept : kept (10 ^ 14) = kept (10 ^ 14 + 1) := by
    rw [kept, kept, nearest_small (by decide), nearest_small (by decide)]
    decide +kernel
  refine ⟨Key.text_eq_iff.mpr ⟨rfl, number_string_iff.mpr hkept⟩, fun h => ?_⟩
  have hid : (10 ^ 14 : ℤ) = 10 ^ 14 + 1 := h.2
  omega

/-- **A job is found** where it was written if and only if its id has at most 14 digits. -/
theorem enqueued_found_iff (id : ℤ) : (memberKey id).text line = (enqueuedKey id).text line ↔ Precise id := by
  rw [Key.text_eq_iff]
  exact ⟨fun h => (text_number_string_iff.mp h.2).2, fun h => ⟨rfl, text_number_string_iff.mpr ⟨rfl, h⟩⟩⟩

end Read

/-! ## `keys.rs` -/

namespace Keys

/-- `prefix`: the hash tag of a line. -/
def linePrefix (line : String) : String := "\x7b" ++ line ++ "\x7d"

/-- A format of the module: the line, a text, an argument and a text. -/
def format (line head x tail : String) : String := linePrefix line ++ head ++ x ++ tail

def job (line : String) (id : ℤ) : String := format line ":job:" (intText id) ""
def errors (line : String) (id : ℤ) : String := format line ":job:" (intText id) ":errors"
def wait (line queue : String) : String := format line ":wait:" queue ""
def delayed (line : String) : String := format line ":delayed" "" ""
def active (line : String) : String := format line ":active" "" ""
def completed (line : String) : String := format line ":completed" "" ""
def failed (line : String) : String := format line ":failed" "" ""
def cancelled (line : String) : String := format line ":cancelled" "" ""
def unique (line key : String) : String := format line ":unique:" key ""
def leader (line role : String) : String := format line ":leader:" role ""
def wakeupChannel (line : String) : String := format line ":wakeup" "" ""
def resignChannel (line : String) : String := format line ":resign" "" ""

theorem bytes_format (line x : String) (b : Builder) (a : Arg) (h : a.string = bytes x) :
    bytes (format line b.head x b.tail) = b.text (bytes (linePrefix line)) a := by
  rw [format, Builder.text, bytes_append, bytes_append, bytes_append, h]

/-- **The module is in sync** with the builders of `library.lua`. -/
theorem in_sync (line : String) :
    (∀ id, bytes (job line id) = jobkey.text (bytes (linePrefix line)) (.id (.text id))) ∧
    (∀ id, bytes (errors line id) = errkey.text (bytes (linePrefix line)) (.id (.text id))) ∧
    (∀ p ∈ [(wait, waitkey), (unique, uniquekey), (leader, leaderkey)], ∀ x,
      bytes (p.1 line x) = p.2.text (bytes (linePrefix line)) (.name (bytes x))) ∧
    ∀ p ∈ [(delayed, delayedkey), (active, activekey), (completed, completedkey), (failed, failedkey), (cancelled, cancelledkey),
        (wakeupChannel, wakeupchan), (resignChannel, resignchan)],
      bytes (p.1 line) = p.2.text (bytes (linePrefix line)) .nothing := by
  have hempty : Arg.nothing.string = bytes "" := by rw [bytes_eq]; rfl
  refine ⟨fun id => bytes_format line (intText id) jobkey (.id (.text id)) rfl,
    fun id => bytes_format line (intText id) errkey (.id (.text id)) rfl, fun p hp x => ?_, fun p hp => ?_⟩
  · simp only [List.mem_cons, List.not_mem_nil, or_false] at hp
    rcases hp with rfl | rfl | rfl
    · exact bytes_format line x waitkey (.name (bytes x)) rfl
    · exact bytes_format line x uniquekey (.name (bytes x)) rfl
    · exact bytes_format line x leaderkey (.name (bytes x)) rfl
  · simp only [List.mem_cons, List.not_mem_nil, or_false] at hp
    rcases hp with rfl | rfl | rfl | rfl | rfl | rfl | rfl
    · exact bytes_format line "" delayedkey .nothing hempty
    · exact bytes_format line "" activekey .nothing hempty
    · exact bytes_format line "" completedkey .nothing hempty
    · exact bytes_format line "" failedkey .nothing hempty
    · exact bytes_format line "" cancelledkey .nothing hempty
    · exact bytes_format line "" wakeupchan .nothing hempty
    · exact bytes_format line "" resignchan .nothing hempty

end Keys

/-! ## The keys of a store -/

/-- The parts of a store. -/
inductive Slot
  | idgen
  | job (id : JobId)
  | errors (id : JobId)
  | zset (k : ZKey)
  | set (k : SKey)
  | unique (u : String)
  | groupMeta (g : String)
  | groups
  | groupRules
  | queuesSeen
  | nqMeta (q : String)
  | nqs
  | schedules
  | schedulesIdx
  | schedulesNext

namespace Slot

/-- The builder of its key. -/
def builder : Slot → Builder
  | idgen => idgenkey
  | job _ => jobkey
  | errors _ => errkey
  | zset (.wait _) => waitkey
  | zset .delayed => delayedkey
  | zset .active => activekey
  | zset .completed => completedkey
  | zset .failed => failedkey
  | zset .cancelled => cancelledkey
  | zset (.grouprun _) => grouprunkey
  | zset (.nqrun _) => nqrunkey
  | zset (.nqcompleted _) => nqcompletedkey
  | zset (.nqfailed _) => nqfailedkey
  | zset (.nqscheduled _) => nqscheduledkey
  | zset (.nqcancelled _) => nqcancelledkey
  | set (.queueset _) => queuesetkey
  | set (.kindset _) => kindsetkey
  | set (.tagset _) => tagsetkey
  | unique _ => uniquekey
  | groupMeta _ => groupmetakey
  | groups => groupsetkey
  | groupRules => grouprulekey
  | queuesSeen => queueseenkey
  | nqMeta _ => nqmetakey
  | nqs => nqsetkey
  | schedules => schedulekey
  | schedulesIdx => scheduleidxkey
  | schedulesNext => schedulenextkey

/-- The job that it is for. -/
def id : Slot → JobId
  | job id | errors id => id
  | _ => 0

/-- The name that it is for. -/
def name : Slot → String
  | zset (.wait x) | zset (.grouprun x) | zset (.nqrun x) | zset (.nqcompleted x) | zset (.nqfailed x)
  | zset (.nqscheduled x) | zset (.nqcancelled x) | set (.queueset x) | set (.kindset x) | set (.tagset x)
  | unique x | groupMeta x | nqMeta x => x
  | _ => ""

/-- What its builder is applied to. -/
def arg (s : Slot) : Arg :=
  match s.builder.hole with
  | .nothing => .nothing
  | .id => .id (.text s.id)
  | .name => .name (bytes s.name)

theorem known (s : Slot) : s.builder ∈ builders := by
  cases s with
  | zset k => cases k <;> exact List.mem_of_elem_eq_true rfl
  | set k => cases k <;> exact List.mem_of_elem_eq_true rfl
  | _ => exact List.mem_of_elem_eq_true rfl

theorem takes (s : Slot) : s.builder.hole.Takes s.arg := by
  unfold arg
  cases s.builder.hole <;> trivial

/-- Its key in Redis. -/
def key (s : Slot) : Key := ⟨s.builder, s.known, s.arg, s.takes⟩

/-- The parts for an id and a name, by their builders. -/
def table (id : JobId) (x : String) : List (Builder × Slot) :=
  [(idgenkey, idgen), (jobkey, job id), (errkey, errors id), (waitkey, zset (.wait x)), (delayedkey, zset .delayed),
    (activekey, zset .active), (completedkey, zset .completed), (failedkey, zset .failed), (cancelledkey, zset .cancelled),
    (grouprunkey, zset (.grouprun x)), (nqrunkey, zset (.nqrun x)), (nqcompletedkey, zset (.nqcompleted x)),
    (nqfailedkey, zset (.nqfailed x)), (nqscheduledkey, zset (.nqscheduled x)), (nqcancelledkey, zset (.nqcancelled x)),
    (queuesetkey, set (.queueset x)), (kindsetkey, set (.kindset x)), (tagsetkey, set (.tagset x)), (uniquekey, unique x),
    (groupmetakey, groupMeta x), (groupsetkey, groups), (grouprulekey, groupRules), (queueseenkey, queuesSeen),
    (nqmetakey, nqMeta x), (nqsetkey, nqs), (schedulekey, schedules), (scheduleidxkey, schedulesIdx),
    (schedulenextkey, schedulesNext)]

theorem lookup_table (s : Slot) : (table s.id s.name).lookup s.builder = some s := by
  cases s with
  | zset k => cases k <;> rfl
  | set k => cases k <;> rfl
  | _ => rfl

theorem id_of_hole (s : Slot) (h : s.builder.hole ≠ .id) : s.id = 0 := by
  cases s with
  | job id => exact absurd rfl h
  | errors id => exact absurd rfl h
  | _ => rfl

theorem name_of_hole (s : Slot) (h : s.builder.hole ≠ .name) : s.name = "" := by
  cases s with
  | zset k => cases k <;> first | rfl | exact absurd rfl h
  | set k => cases k <;> exact absurd rfl h
  | _ => first | rfl | exact absurd rfl h

/-- The argument tells the id and the name. -/
theorem arg_string_inj {s s' : Slot} (hb : s.builder = s'.builder) (h : s.arg.string = s'.arg.string) :
    s.id = s'.id ∧ s.name = s'.name := by
  unfold arg at h
  rw [hb] at h
  cases hhole : s'.builder.hole with
  | nothing =>
    have hne : ∀ t : Slot, t.builder.hole = .nothing → t.id = 0 ∧ t.name = "" := fun t ht =>
      ⟨t.id_of_hole (by rw [ht]; decide), t.name_of_hole (by rw [ht]; decide)⟩
    obtain ⟨hid, hname⟩ := hne s (hb ▸ hhole)
    obtain ⟨hid', hname'⟩ := hne s' hhole
    exact ⟨hid.trans hid'.symm, hname.trans hname'.symm⟩
  | id =>
    rw [hhole] at h
    have hname : ∀ t : Slot, t.builder.hole = .id → t.name = "" := fun t ht => t.name_of_hole (by rw [ht]; decide)
    exact ⟨by exact_mod_cast text_string_iff.mp h, (hname s (hb ▸ hhole)).trans (hname s' hhole).symm⟩
  | name =>
    rw [hhole] at h
    have hid : ∀ t : Slot, t.builder.hole = .name → t.id = 0 := fun t ht => t.id_of_hole (by rw [ht]; decide)
    exact ⟨(hid s (hb ▸ hhole)).trans (hid s' hhole).symm, bytes_injective h⟩

/-- **The parts of a store** have different keys. -/
theorem key_injective {line : LuaString} {s s' : Slot} (h : s.key.text line = s'.key.text line) : s = s' := by
  obtain ⟨hb, ha⟩ := Key.text_eq_iff.mp h
  obtain ⟨hid, hname⟩ := arg_string_inj hb ha
  have hlookup := lookup_table s
  rw [hid, hname, show s.builder = s'.builder from hb, lookup_table s', Option.some.injEq] at hlookup
  exact hlookup.symm

end Slot

end Eddyq.Redis
