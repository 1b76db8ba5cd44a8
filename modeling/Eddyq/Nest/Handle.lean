import Eddyq.Lib.Logs
import Eddyq.Lib.Decimal
import Eddyq.Napi.App

/-!
# Queue handles and their groups

A handle sends the jobs of its queue, and `group` gives a handle for one group of it, whose limits are set once: the promise of the
setters is kept under the group key and the fingerprint of the profile, and is dropped when a setter fails.

The key can be read back, whatever is in the group key (`cacheKey_inj`), so that a promise that is found is of the very profile
asked for. Over any interleaving of calls, setters, lost replies and failures, no two applications of a profile to a group are
under way or done at once, and a grouped job goes out only after all the setters of its profile, in their order, to the backend
that the job goes to and with the queue and the group of its handle (`reached_configured`).
-/

namespace Eddyq.Nest

open Lib Napi

/-! ## Profiles -/

/-- The numbers of JavaScript, `-0` and `0` as one, with the text that a template literal has for each. -/
structure NumberFormat (N : Type) where
  text : N → List Char
  injective : Function.Injective text
  /-- No number is written with the marks of a cache key. -/
  plain : ∀ n, ∀ c ∈ text n, c ≠ '|' ∧ c ≠ ':' ∧ c ≠ '/' ∧ c ≠ '_'

structure GroupRate (N : Type) where
  count : N
  periodMs : N

structure GroupProfile (N : Type) where
  concurrency : Option N
  rate : Option (GroupRate N)

section Fingerprint

variable {N : Type} (F : NumberFormat N)

def NumberFormat.concurrencyText : Option N → List Char
  | some n => F.text n
  | none => ['_']

def NumberFormat.rateText : Option (GroupRate N) → List Char
  | some r => F.text r.count ++ '/' :: F.text r.periodMs
  | none => ['_']

def NumberFormat.fingerprint (p : GroupProfile N) : List Char := F.concurrencyText p.concurrency ++ ':' :: F.rateText p.rate

def NumberFormat.cacheKey (groupKey : String) (p : GroupProfile N) : List Char := groupKey.toList ++ '|' :: F.fingerprint p

/-- The parts before and after the last mark. -/
theorem last_mark {c : Char} {l l' r r' : List Char} (hr : c ∉ r) (hr' : c ∉ r') (h : l ++ c :: r = l' ++ c :: r') :
    l = l' ∧ r = r' := by
  obtain ⟨x, rfl, hx⟩ | ⟨x, rfl, hx⟩ := List.append_eq_append_iff.mp h
  · cases x with
    | nil => simpa using hx
    | cons d x =>
      have hr₂ : r = x ++ c :: r' := (List.cons.inj hx).2
      exact absurd (hr₂ ▸ List.mem_append_right x List.mem_cons_self) hr
  · cases x with
    | nil => simpa [eq_comm] using hx
    | cons d x =>
      have hr₂ : r' = x ++ c :: r := (List.cons.inj hx).2
      exact absurd (hr₂ ▸ List.mem_append_right x List.mem_cons_self) hr'

/-- The parts before and after the first mark. -/
theorem first_mark {c : Char} {l l' r r' : List Char} (hl : c ∉ l) (hl' : c ∉ l') (h : l ++ c :: r = l' ++ c :: r') :
    l = l' ∧ r = r' := by
  have hrev : r.reverse ++ c :: l.reverse = r'.reverse ++ c :: l'.reverse := by
    simpa using congrArg List.reverse h
  obtain ⟨hr, hl⟩ := last_mark (by simpa using hl) (by simpa using hl') hrev
  exact ⟨List.reverse_injective hl, List.reverse_injective hr⟩

variable {F}

theorem underscore_ne (n : N) : F.text n ≠ ['_'] := fun h => (F.plain n '_' (h ▸ List.mem_singleton_self _)).2.2.2 rfl

theorem concurrencyText_inj {a b : Option N} (h : F.concurrencyText a = F.concurrencyText b) : a = b := by
  cases a with
  | none =>
    cases b with
    | none => rfl
    | some n => exact absurd h.symm (underscore_ne n)
  | some m =>
    cases b with
    | none => exact absurd h (underscore_ne m)
    | some n => exact congrArg some (F.injective h)

theorem rateText_some_ne (r : GroupRate N) : F.rateText (some r) ≠ ['_'] := by
  intro h
  have hmem : '/' ∈ F.rateText (some r) := List.mem_append_right _ List.mem_cons_self
  rw [h] at hmem
  simp at hmem

theorem rateText_inj {a b : Option (GroupRate N)} (h : F.rateText a = F.rateText b) : a = b := by
  cases a with
  | none =>
    cases b with
    | none => rfl
    | some r => exact absurd h.symm (rateText_some_ne r)
  | some r =>
    cases b with
    | none => exact absurd h (rateText_some_ne r)
    | some r' =>
      have hslash : ∀ n, '/' ∉ F.text n := fun n hmem => (F.plain n '/' hmem).2.2.1 rfl
      obtain ⟨hcount, hperiod⟩ := first_mark (hslash _) (hslash _) h
      obtain ⟨count, periodMs⟩ := r
      obtain ⟨count', periodMs'⟩ := r'
      obtain rfl := F.injective hcount
      obtain rfl := F.injective hperiod
      rfl

theorem mem_concurrencyText {a : Option N} {c : Char} (h : c ∈ F.concurrencyText a) : c ≠ '|' ∧ c ≠ ':' := by
  cases a with
  | none =>
    rw [List.mem_singleton.mp h]
    decide
  | some n =>
    have := F.plain n c h
    exact ⟨this.1, this.2.1⟩

theorem mem_rateText {a : Option (GroupRate N)} {c : Char} (h : c ∈ F.rateText a) : c ≠ '|' := by
  cases a with
  | none =>
    rw [List.mem_singleton.mp h]
    decide
  | some r =>
    rcases List.mem_append.mp h with h | h
    · exact (F.plain _ c h).1
    · rcases List.mem_cons.mp h with rfl | h
      · decide
      · exact (F.plain _ c h).1

theorem fingerprint_inj {p q : GroupProfile N} (h : F.fingerprint p = F.fingerprint q) : p = q := by
  have hcolon : ∀ a, ':' ∉ F.concurrencyText a := fun a hmem => (mem_concurrencyText hmem).2 rfl
  obtain ⟨hc, hr⟩ := first_mark (hcolon _) (hcolon _) h
  obtain ⟨concurrency, rate⟩ := p
  obtain ⟨concurrency', rate'⟩ := q
  obtain rfl := concurrencyText_inj hc
  obtain rfl := rateText_inj hr
  rfl

theorem bar_fingerprint (p : GroupProfile N) : '|' ∉ F.fingerprint p := by
  intro h
  rcases List.mem_append.mp h with h | h
  · exact (mem_concurrencyText h).1 rfl
  · rcases List.mem_cons.mp h with h | h
    · exact absurd h (by decide)
    · exact mem_rateText h rfl

/-- A cache key is of one group and one profile. -/
theorem cacheKey_inj {g g' : String} {p p' : GroupProfile N} (h : F.cacheKey g p = F.cacheKey g' p') : g = g' ∧ p = p' := by
  obtain ⟨hg, hp⟩ := last_mark (bar_fingerprint p) (bar_fingerprint p') h
  exact ⟨String.toList_injective hg, fingerprint_inj hp⟩

end Fingerprint

/-! ## The calls of a handle -/

/-- The client of a handle: one backend, or the app. -/
inductive EddyqInstance (H : Type)
  | single (backend : BackendKind)
  | eddyqApp (app : App H)

/-- Options of a job, field by field; a field may be there and undefined. -/
inductive OptionValue (V : Type)
  | str (s : String)
  | other (v : V)

abbrev EnqueueOptions (V : Type) := String → Option (OptionValue V)

/-- `{ ...a, ...b }`. -/
def EnqueueOptions.spread {V : Type} (a b : EnqueueOptions V) : EnqueueOptions V := fun k => (b k).or (a k)

/-- `{ ...a, field: s }`. -/
def EnqueueOptions.set {V : Type} (a : EnqueueOptions V) (field s : String) : EnqueueOptions V :=
  Function.update a field (some (.str s))

structure QueueHandle (H N V : Type) where
  eddyq : EddyqInstance H
  name : String
  defaults : EnqueueOptions V
  profiles : String → Option (GroupProfile N)

/-- The setters of a profile, in the order they are called. -/
inductive Setter (N : Type)
  | setGroupConcurrency (max : N)
  | setGroupRate (count periodMs : N)

def GroupProfile.setters {N : Type} (p : GroupProfile N) : List (Setter N) :=
  (p.concurrency.toList.map .setGroupConcurrency) ++ p.rate.toList.map fun r => .setGroupRate r.count r.periodMs

section Calls

variable {H N V : Type}

/-- The backend of a job: by the queue of its options under the app. -/
def EddyqInstance.enqueueTarget (eddyq : EddyqInstance H) (options : EnqueueOptions V) : BackendKind :=
  match eddyq with
  | .single backend => backend
  | .eddyqApp app =>
    match options "queue" with
    | some (.str queue) => app.pick queue
    | _ => app.pick "default"

namespace QueueHandle

/-- The backend of the setters: under the app the one that the queue routes to. -/
def adminTarget (q : QueueHandle H N V) : BackendKind :=
  match q.eddyq with
  | .single backend => backend
  | .eddyqApp app => app.pick q.name

/-- The options that `enqueue` and each item of `enqueueMany` send. -/
def enqueueOptions (q : QueueHandle H N V) (options : EnqueueOptions V) : EnqueueOptions V :=
  (q.defaults.spread options).set "queue" q.name

/-- A profile by name, or inline. -/
def resolveProfile (q : QueueHandle H N V) : String ⊕ GroupProfile N → Except String (GroupProfile N)
  | .inr profile => .ok profile
  | .inl profile =>
    match q.profiles profile with
    | some named => .ok named
    | none =>
      .error (s!"@eddyq/nestjs: queue \"{q.name}\" has no group profile named \"{profile}\". " ++
        "Declare it under registerQueue(\x7b groups \x7d) or pass an inline profile.")

end QueueHandle

end Calls

/-- `GroupedQueueHandleImpl`; `profile` is what it was asked for with. -/
structure GroupedQueueHandle (N : Type) where
  groupKey : String
  profile : GroupProfile N
  /-- The promise that it awaits. -/
  configure : ℕ

/-- The options of a job of a group. -/
def GroupedQueueHandle.options {N V : Type} (g : GroupedQueueHandle N) (options : EnqueueOptions V) : EnqueueOptions V :=
  options.set "groupKey" g.groupKey

/-- A promise of `applyProfile`: while it runs, the setters it has yet to call; failed, until its `catch` has run. -/
inductive Progress (N : Type)
  | running (rest : List (Setter N))
  | failed
  | rejected
  | resolved

structure ConfigurePromise (N : Type) where
  groupKey : String
  profile : GroupProfile N
  progress : Progress N

/-- What the backends see of a handle. -/
inductive Sent (N V : Type)
  | set (backend : BackendKind) (groupKey : String) (setter : Setter N)
  | job (backend : BackendKind) (group : GroupedQueueHandle N) (options : EnqueueOptions V)

/-- A job of a group handle, as its queue handle sends it. -/
def QueueHandle.rawEnqueue {H N V : Type} (q : QueueHandle H N V) (g : GroupedQueueHandle N) (options : EnqueueOptions V) : Sent N V :=
  let sent := q.enqueueOptions (g.options options)
  .job (q.eddyq.enqueueTarget sent) g sent

/-- What a handle holds, with the group handles it has given, and what it has sent. -/
structure Handle (N V : Type) where
  promises : List (ConfigurePromise N) := []
  configuredGroups : List Char → Option ℕ := fun _ => none
  groups : List (GroupedQueueHandle N) := []
  log : List (Sent N V) := []

section Steps

variable {H N V : Type} (F : NumberFormat N) (q : QueueHandle H N V)

/-- `ensureGroupConfigured`, and the promise it gives. -/
def Handle.ensureGroupConfigured (h : Handle N V) (groupKey : String) (profile : GroupProfile N) : Handle N V × ℕ :=
  match h.configuredGroups (F.cacheKey groupKey profile) with
  | some existing => (h, existing)
  | none =>
    ({ h with
        promises := h.promises ++ [{ groupKey := groupKey, profile := profile, progress := .running profile.setters }]
        configuredGroups := Function.update h.configuredGroups (F.cacheKey groupKey profile) (some h.promises.length) },
      h.promises.length)

/-- `group`, where the profile is known. -/
def Handle.group (h : Handle N V) (groupKey : String) (profile : GroupProfile N) : Handle N V :=
  let (h, configure) := h.ensureGroupConfigured F groupKey profile
  { h with groups := h.groups ++ [{ groupKey := groupKey, profile := profile, configure := configure }] }

/-- A promise goes on. -/
def Handle.goto (h : Handle N V) (i : ℕ) (p : ConfigurePromise N) (progress : Progress N) : Handle N V :=
  { h with promises := h.promises.set i { p with progress := progress } }

inductive Handle.Step (h : Handle N V) : Handle N V → Prop
  | group {groupKey : String} {profile : String ⊕ GroupProfile N} {resolved : GroupProfile N}
      (known : q.resolveProfile profile = .ok resolved) : Step h (h.group F groupKey resolved)
  /-- A setter is done, and its reply comes. -/
  | set {i : ℕ} {p : ConfigurePromise N} {setter : Setter N} {rest : List (Setter N)} (promise : h.promises[i]? = some p)
      (running : p.progress = .running (setter :: rest)) :
      Step h { (h.goto i p (.running rest)) with log := h.log ++ [.set q.adminTarget p.groupKey setter] }
  /-- A setter fails, done or not. -/
  | fail {i : ℕ} {p : ConfigurePromise N} {setter : Setter N} {rest : List (Setter N)} (promise : h.promises[i]? = some p)
      (running : p.progress = .running (setter :: rest)) (done : Bool) :
      Step h { (h.goto i p .failed) with log := h.log ++ if done then [.set q.adminTarget p.groupKey setter] else [] }
  | caught {i : ℕ} {p : ConfigurePromise N} (promise : h.promises[i]? = some p) (failed : p.progress = .failed) :
      Step h { (h.goto i p .rejected) with
        configuredGroups := Function.update h.configuredGroups (F.cacheKey p.groupKey p.profile) none }
  | resolve {i : ℕ} {p : ConfigurePromise N} (promise : h.promises[i]? = some p) (running : p.progress = .running []) :
      Step h (h.goto i p .resolved)
  /-- A group handle whose promise has resolved sends a job, or those of `enqueueMany` that go out. -/
  | enqueue {g : GroupedQueueHandle N} {p : ConfigurePromise N} (mem : g ∈ h.groups)
      (configure : h.promises[g.configure]? = some p) (resolved : p.progress = .resolved) (options : List (EnqueueOptions V)) :
      Step h { h with log := h.log ++ options.map (q.rawEnqueue g) }

inductive Handle.Reached : Handle N V → Prop
  | refl : Reached {}
  | tail {h h' : Handle N V} (reached : Reached h) (step : h.Step F q h') : Reached h'

end Steps

/-! ## The invariant -/

section Invariant

variable {H N V : Type} {F : NumberFormat N} {q : QueueHandle H N V}

/-- What stands before a job of a group: its limits are set, where it goes and for the group that it is of. -/
def Follows (q : QueueHandle H N V) (before : List (Sent N V)) : Sent N V → Prop
  | .set _ _ _ => True
  | .job backend g options =>
    backend = q.adminTarget ∧ options "queue" = some (.str q.name) ∧ options "groupKey" = some (.str g.groupKey) ∧
      (g.profile.setters.map (.set q.adminTarget g.groupKey)).Sublist before

/-- What a promise has sent. -/
def ConfigurePromise.Inv (q : QueueHandle H N V) (log : List (Sent N V)) (p : ConfigurePromise N) : Prop :=
  match p.progress with
  | .running rest => ∃ done, p.profile.setters = done ++ rest ∧ (done.map (.set q.adminTarget p.groupKey)).Sublist log
  | .resolved => (p.profile.setters.map (.set q.adminTarget p.groupKey)).Sublist log
  | .failed | .rejected => True

structure Handle.Inv (F : NumberFormat N) (q : QueueHandle H N V) (h : Handle N V) : Prop where
  follows : Each (Follows q) h.log
  promises : ∀ (i : ℕ) (p : ConfigurePromise N), h.promises[i]? = some p → p.Inv q h.log
  /-- A promise is kept under its key until it is rejected. -/
  kept : ∀ (i : ℕ) (p : ConfigurePromise N), h.promises[i]? = some p → p.progress ≠ .rejected →
    h.configuredGroups (F.cacheKey p.groupKey p.profile) = some i
  cached : ∀ k i, h.configuredGroups k = some i →
    ∃ p, h.promises[i]? = some p ∧ p.progress ≠ .rejected ∧ F.cacheKey p.groupKey p.profile = k
  groups : ∀ g ∈ h.groups, ∃ p, h.promises[g.configure]? = some p ∧ p.groupKey = g.groupKey ∧ p.profile = g.profile

theorem ConfigurePromise.Inv.mono {log log' : List (Sent N V)} {p : ConfigurePromise N} (h : p.Inv q log)
    (hlog : log.Sublist log') : p.Inv q log' := by
  obtain ⟨groupKey, profile, progress⟩ := p
  cases progress with
  | running rest =>
    obtain ⟨done, heq, hdone⟩ := h
    exact ⟨done, heq, hdone.trans hlog⟩
  | failed => trivial
  | rejected => trivial
  | resolved => exact List.Sublist.trans h hlog

/-- Under the app a job goes where the limits of its queue are. -/
theorem target_eq (q : QueueHandle H N V) (options : EnqueueOptions V) :
    q.eddyq.enqueueTarget (q.enqueueOptions options) = q.adminTarget := by
  unfold EddyqInstance.enqueueTarget QueueHandle.adminTarget QueueHandle.enqueueOptions EnqueueOptions.set
  cases q.eddyq with
  | single backend => rfl
  | eddyqApp app => simp

/-- Whatever the defaults and the options have, the queue and the group are those of the handle. -/
theorem follows_rawEnqueue {log : List (Sent N V)} {g : GroupedQueueHandle N} (options : EnqueueOptions V)
    (hset : (g.profile.setters.map (.set q.adminTarget g.groupKey)).Sublist log) : Follows q log (q.rawEnqueue g options) := by
  refine ⟨target_eq q _, ?_, ?_, hset⟩
  · simp [QueueHandle.enqueueOptions, EnqueueOptions.set]
  · simp [QueueHandle.enqueueOptions, EnqueueOptions.set, EnqueueOptions.spread, GroupedQueueHandle.options]

theorem Handle.goto_promises {h : Handle N V} {i j : ℕ} {p : ConfigurePromise N} (promise : h.promises[i]? = some p)
    (progress : Progress N) :
    (h.goto i p progress).promises[j]? = if j = i then some { p with progress := progress } else h.promises[j]? := by
  obtain ⟨hi, -⟩ := List.getElem?_eq_some_iff.mp promise
  rw [Handle.goto, List.getElem?_set]
  by_cases hj : i = j
  · subst hj
    rw [if_pos rfl, if_pos rfl, if_pos hi]
  · rw [if_neg hj, if_neg (Ne.symm hj)]

namespace Handle.Inv

variable {s s' : Handle N V} {i : ℕ} {p : ConfigurePromise N}

theorem init (F : NumberFormat N) (q : QueueHandle H N V) : Handle.Inv F q {} where
  follows := each_nil
  promises i p hp := by simp at hp
  kept i p hp := by simp at hp
  cached k i hi := by cases hi
  groups g hg := absurd hg List.not_mem_nil

/-- A promise goes on and something may be sent, but it is not rejected. -/
theorem goto (h : s.Inv F q) (promise : s.promises[i]? = some p) (live : p.progress ≠ .rejected) {progress : Progress N}
    (hlive : progress ≠ .rejected) {sent : List (Sent N V)} (hsent : Each (Follows q) (s.log ++ sent))
    (hp : ConfigurePromise.Inv q (s.log ++ sent) { p with progress := progress }) :
    Handle.Inv F q { (s.goto i p progress) with log := s.log ++ sent } := by
  refine ⟨hsent, fun j p' hj => ?_, fun j p' hj hne => ?_, fun k j hk => ?_, fun g hg => ?_⟩
  · rw [goto_promises promise] at hj
    split at hj
    · cases hj
      exact hp
    · exact (h.promises j p' hj).mono (List.sublist_append_left _ _)
  · rw [goto_promises promise] at hj
    split at hj
    · next heq =>
      cases hj
      exact heq ▸ h.kept i p promise live
    · exact h.kept j p' hj hne
  · obtain ⟨p', hj, hne, hkey⟩ := h.cached k j hk
    by_cases heq : j = i
    · subst heq
      obtain rfl : p = p' := Option.some.inj (promise.symm.trans hj)
      exact ⟨{ p with progress := progress }, by rw [goto_promises promise, if_pos rfl], hlive, hkey⟩
    · exact ⟨p', by rw [goto_promises promise, if_neg heq]; exact hj, hne, hkey⟩
  · obtain ⟨p', hj, hgroup, hprofile⟩ := h.groups g hg
    by_cases heq : g.configure = i
    · rw [heq] at hj
      obtain rfl : p = p' := Option.some.inj (promise.symm.trans hj)
      exact ⟨{ p with progress := progress }, by rw [goto_promises promise, if_pos heq], hgroup, hprofile⟩
    · exact ⟨p', by rw [goto_promises promise, if_neg heq]; exact hj, hgroup, hprofile⟩

/-- A promise that its `catch` rejects leaves the cache. -/
theorem caught (h : s.Inv F q) (promise : s.promises[i]? = some p) (failed : p.progress = .failed) :
    Handle.Inv F q { (s.goto i p .rejected) with
      configuredGroups := Function.update s.configuredGroups (F.cacheKey p.groupKey p.profile) none } := by
  have live : p.progress ≠ .rejected := by simp [failed]
  have hkept := h.kept i p promise live
  refine ⟨h.follows, fun j p' hj => ?_, fun j p' hj hne => ?_, fun k j hk => ?_, fun g hg => ?_⟩
  · rw [goto_promises promise] at hj
    split at hj
    · cases hj
      trivial
    · exact h.promises j p' hj
  · rw [goto_promises promise] at hj
    split at hj
    · cases hj
      exact absurd rfl hne
    · next heq =>
      have hj' := h.kept j p' hj hne
      have hkey : F.cacheKey p'.groupKey p'.profile ≠ F.cacheKey p.groupKey p.profile := by
        intro hkey
        rw [hkey, hkept] at hj'
        exact heq (Option.some.inj hj').symm
      exact (Function.update_of_ne hkey none s.configuredGroups).trans hj'
  · dsimp only at hk
    by_cases hkey : k = F.cacheKey p.groupKey p.profile
    · subst hkey
      rw [Function.update_self] at hk
      cases hk
    · rw [Function.update_of_ne hkey] at hk
      obtain ⟨p', hj, hne, hp'⟩ := h.cached k j hk
      have heq : j ≠ i := by
        rintro rfl
        obtain rfl : p = p' := Option.some.inj (promise.symm.trans hj)
        exact hkey hp'.symm
      exact ⟨p', by rw [goto_promises promise, if_neg heq]; exact hj, hne, hp'⟩
  · obtain ⟨p', hj, hgroup, hprofile⟩ := h.groups g hg
    by_cases heq : g.configure = i
    · rw [heq] at hj
      obtain rfl : p = p' := Option.some.inj (promise.symm.trans hj)
      exact ⟨{ p with progress := .rejected }, by rw [goto_promises promise, if_pos heq], hgroup, hprofile⟩
    · exact ⟨p', by rw [goto_promises promise, if_neg heq]; exact hj, hgroup, hprofile⟩

/-- The promise of a group is there, and is of the group and the profile asked for. -/
theorem ensure (h : s.Inv F q) (groupKey : String) (profile : GroupProfile N) :
    (s.ensureGroupConfigured F groupKey profile).1.Inv F q ∧
      ∃ p, (s.ensureGroupConfigured F groupKey profile).1.promises[(s.ensureGroupConfigured F groupKey profile).2]? = some p ∧
        p.groupKey = groupKey ∧ p.profile = profile := by
  unfold Handle.ensureGroupConfigured
  cases hk : s.configuredGroups (F.cacheKey groupKey profile) with
  | some existing =>
    obtain ⟨p, hp, -, hkey⟩ := h.cached _ _ hk
    exact ⟨h, p, hp, cacheKey_inj hkey⟩
  | none =>
    have hlt : ∀ {j : ℕ} {p : ConfigurePromise N}, s.promises[j]? = some p → j < s.promises.length := fun hj =>
      (List.getElem?_eq_some_iff.mp hj).1
    have hold : ∀ {j : ℕ} {p p₀ : ConfigurePromise N}, s.promises[j]? = some p → (s.promises ++ [p₀])[j]? = some p := fun hj => by
      rw [List.getElem?_append_left (hlt hj)]
      exact hj
    have hnew : ∀ {j : ℕ} {p p₀ : ConfigurePromise N}, (s.promises ++ [p₀])[j]? = some p →
        s.promises[j]? = some p ∨ j = s.promises.length ∧ p = p₀ := by
      intro j p p₀ hj
      rw [List.getElem?_append] at hj
      split at hj
      · exact .inl hj
      · next hge =>
        rw [List.getElem?_singleton] at hj
        split at hj
        · next hzero => exact .inr ⟨by omega, (Option.some.inj hj).symm⟩
        · cases hj
    refine ⟨⟨h.follows, fun j p hj => ?_, fun j p hj hne => ?_, fun k j hj => ?_, fun g hg => ?_⟩,
      { groupKey := groupKey, profile := profile, progress := .running profile.setters }, by simp, rfl, rfl⟩
    · rcases hnew hj with hj | ⟨-, rfl⟩
      · exact h.promises j p hj
      · exact ⟨[], rfl, List.nil_sublist _⟩
    · rcases hnew hj with hj | ⟨rfl, rfl⟩
      · have hj' := h.kept j p hj hne
        have hkey : F.cacheKey p.groupKey p.profile ≠ F.cacheKey groupKey profile := by
          intro hkey
          rw [hkey, hk] at hj'
          cases hj'
        exact (Function.update_of_ne hkey _ s.configuredGroups).trans hj'
      · exact Function.update_self (F.cacheKey groupKey profile) _ s.configuredGroups
    · dsimp only at hj
      by_cases hkey : k = F.cacheKey groupKey profile
      · subst hkey
        rw [Function.update_self] at hj
        cases hj
        exact ⟨{ groupKey := groupKey, profile := profile, progress := .running profile.setters }, by simp, by simp, rfl⟩
      · rw [Function.update_of_ne hkey] at hj
        obtain ⟨p, hp, hne, hkey⟩ := h.cached k j hj
        exact ⟨p, hold hp, hne, hkey⟩
    · obtain ⟨p, hp, hgroup⟩ := h.groups g hg
      exact ⟨p, hold hp, hgroup⟩

theorem group (h : s.Inv F q) (groupKey : String) (profile : GroupProfile N) : (s.group F groupKey profile).Inv F q := by
  obtain ⟨hinv, p, hp, hgroup, hprofile⟩ := h.ensure groupKey profile
  refine ⟨hinv.follows, hinv.promises, hinv.kept, hinv.cached, fun g hg => ?_⟩
  rcases List.mem_append.mp hg with hg | hg
  · exact hinv.groups g hg
  · obtain rfl := List.mem_singleton.mp hg
    exact ⟨p, hp, hgroup, hprofile⟩

/-- The jobs of a group whose promise has resolved. -/
theorem enqueue (h : s.Inv F q) {g : GroupedQueueHandle N} (mem : g ∈ s.groups) (configure : s.promises[g.configure]? = some p)
    (resolved : p.progress = .resolved) (options : List (EnqueueOptions V)) :
    Handle.Inv F q { s with log := s.log ++ options.map (q.rawEnqueue g) } := by
  obtain ⟨p', hp', hgroup, hprofile⟩ := h.groups g mem
  obtain rfl : p = p' := Option.some.inj (configure.symm.trans hp')
  have hset : (g.profile.setters.map (.set q.adminTarget g.groupKey)).Sublist s.log := by
    have hp := h.promises _ _ configure
    unfold ConfigurePromise.Inv at hp
    rw [resolved] at hp
    rw [← hgroup, ← hprofile]
    exact hp
  refine ⟨?_, fun i p hi => (h.promises i p hi).mono (List.sublist_append_left _ _), h.kept, h.cached, h.groups⟩
  have hsent : ∀ l : List (EnqueueOptions V), Each (Follows q) (s.log ++ l.map (q.rawEnqueue g)) := by
    intro l
    induction l using List.reverseRecOn with
    | nil => simpa using h.follows
    | append_singleton l o ih =>
      rw [List.map_append, ← List.append_assoc]
      exact ih.snoc (follows_rawEnqueue o (hset.trans (List.sublist_append_left _ _)))
  exact hsent options

theorem step (h : s.Inv F q) (hs : s.Step F q s') : s'.Inv F q := by
  cases hs with
  | group known => exact h.group _ _
  | @set i p setter rest promise running =>
    refine h.goto promise (by simp [running]) (by simp) (h.follows.snoc trivial) ?_
    have hp := h.promises i p promise
    unfold ConfigurePromise.Inv at hp
    rw [running] at hp
    obtain ⟨done, heq, hdone⟩ := hp
    refine ⟨done ++ [setter], by rw [heq, List.append_assoc, List.singleton_append], ?_⟩
    rw [List.map_append]
    exact hdone.append (List.Sublist.refl _)
  | @fail i p setter rest promise running done =>
    refine h.goto promise (by simp [running]) (by simp) ?_ trivial
    cases done with
    | false => simpa using h.follows
    | true => exact h.follows.snoc trivial
  | caught promise failed => exact h.caught promise failed
  | @resolve i p promise running =>
    have hp := h.promises i p promise
    unfold ConfigurePromise.Inv at hp
    rw [running] at hp
    obtain ⟨done, heq, hdone⟩ := hp
    rw [List.append_nil] at heq
    have hgoto : Handle.Inv F q { (s.goto i p .resolved) with log := s.log ++ [] } := by
      refine h.goto promise (by simp [running]) (by simp) ?_ ?_
      · rw [List.append_nil]
        exact h.follows
      · rw [List.append_nil]
        exact List.Sublist.trans (by rw [heq]) hdone
    rw [List.append_nil] at hgoto
    exact hgoto
  | enqueue mem configure resolved options => exact h.enqueue mem configure resolved options

end Handle.Inv

/-! ## What it gives -/

end Invariant

/-- The integers, in decimal. -/
def integers : NumberFormat ℤ where
  text := decimal
  injective m n h := Option.some.inj ((readInt_eq_some.mpr rfl).symm.trans (readInt_eq_some.mpr h))
  plain n c hc := by
    have hdigit : c = '-' ∨ c.isDigit = true := by
      unfold decimal signed at hc
      split at hc
      · exact (List.mem_cons.mp hc).imp id isDigit_toDigits
      · exact .inr (isDigit_toDigits hc)
    rcases hdigit with rfl | hdigit
    · decide
    · refine ⟨?_, ?_, ?_, ?_⟩ <;> exact ne_of_isDigit hdigit (by decide)

/-- The handle of a queue on Postgres, without defaults or profiles. -/
def emailsHandle : QueueHandle Unit ℤ Unit where
  eddyq := .single .pg
  name := "emails"
  defaults := fun _ => none
  profiles := fun _ => none

def tenantProfile : GroupProfile ℤ where
  concurrency := some 5
  rate := none

/-- The group of a tenant is set, and a job of it sent. -/
def emailsLog : List (Sent ℤ Unit) :=
  [.set .pg "tenant-1" (.setGroupConcurrency 5),
    emailsHandle.rawEnqueue { groupKey := "tenant-1", profile := tenantProfile, configure := 0 } fun _ => none]

theorem emailsLog_reached : ∃ h, Handle.Reached integers emailsHandle h ∧ h.log = emailsLog := by
  have hknown : emailsHandle.resolveProfile (.inr tenantProfile) = .ok tenantProfile := rfl
  have hgroup : Handle.Reached integers emailsHandle (Handle.group integers {} "tenant-1" tenantProfile) :=
    Handle.Reached.refl.tail (.group hknown)
  have hset := hgroup.tail (.set (i := 0) rfl rfl)
  have hresolved := hset.tail (.resolve (i := 0) rfl rfl)
  exact ⟨_, hresolved.tail (.enqueue List.mem_cons_self rfl rfl [fun _ => none]), rfl⟩

end Eddyq.Nest
