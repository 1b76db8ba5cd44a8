import Eddyq.Redis.Cells

/-!
# The tick on Redis

`fire_due_schedules` fires the due schedules one after the other, the oldest of at most 128 first, and ends at the first
one without a next occurrence. A schedule is fired exactly when fewer than 128 due names come before it and all of them
are live (`tickFiresLive_iff`).
-/

namespace Eddyq.Redis

open Eddyq.Lib

/-- The trigger of an entry still has an occurrence. -/
def ScheduleEntry.live (cron : Cron) (now clock : ℤ) (x : String × ScheduleEntry) : Bool :=
  match x.2.next cron x.1 now clock with
  | .ok _ => true
  | .error _ => false

/-- The due names, oldest first. -/
def Store.dueNames (s : Store) (now : ℤ) : List String :=
  (s.schedulesNext.entries.filter (fun e => decide (e.1 ≤ now))).map Prod.snd

/-- The schedule was fired: it has a new job and its next run is set. -/
structure FiredIn (name : String) (e : ScheduleEntry) (s s' : Store) (now next : ℤ) : Prop where
  job : ∃ i, s.idgen < i ∧ (s'.hash i).kind = some e.kind ∧ (s'.hash i).payload = some e.payload ∧
    (s'.hash i).queue = some e.queue ∧ (s'.hash i).state = some .pending
  entry : ∃ e', s'.schedule? name = some e' ∧ e'.lastRunAtMs = now ∧ e'.nextRunAtMs = next
  score : s'.schedulesNext.score? name = some next

/-- The tick fires every due enabled schedule that is live. -/
def Store.TickFiresLive (cron : Cron) (s : Store) (now clock : ℤ) : Prop :=
  ∀ name ∈ s.dueNames now, ∀ e, s.schedule? name = some e → e.enabled = 1 →
    ∀ next, e.next cron name now clock = .ok next →
      FiredIn name e s (fireDueSchedules cron s now clock).1 now next

/-! ## One fire -/

section Fire

variable (s : Store) (a : FireArgs)

theorem schedule?_setSchedule (name n : String) (e : ScheduleEntry) :
    (s.setSchedule name e).schedule? n = if n = name then some e else s.schedule? n := by
  unfold Store.setSchedule
  split
  · next h =>
    have hkey : ((fun x : String × ScheduleEntry => decide (x.1 = n)) ∘ fun x => if x.1 = name then (name, e) else x) =
        fun x => decide (x.1 = n) := by
      funext x
      by_cases hx : x.1 = name
      · simp [hx]
      · simp [hx]
    unfold Store.schedule? at h ⊢
    dsimp only
    rw [List.find?_map, hkey, Option.map_map]
    by_cases hn : n = name
    · subst hn
      obtain ⟨e₀, he₀⟩ := Option.isSome_iff_exists.mp h
      obtain ⟨x, hx, _⟩ := Option.map_eq_some_iff.mp he₀
      have hxn : x.1 = n := by simpa using List.find?_some hx
      simp [hx, hxn]
    · rw [if_neg hn]
      cases hx : s.schedules.find? (fun x => decide (x.1 = n)) with
      | none => rfl
      | some x =>
        have hxn : x.1 = n := by simpa using List.find?_some hx
        simp [hxn, hn]
  · next h =>
    unfold Store.schedule? at h ⊢
    dsimp only
    rw [List.find?_append]
    by_cases hn : n = name
    · subst hn
      have hnone : s.schedules.find? (fun x => decide (x.1 = n)) = none := by
        rw [Option.isSome_map] at h
        exact Option.not_isSome_iff_eq_none.mp h
      simp [hnone]
    · have hlast : [(name, e)].find? (fun x => decide (x.1 = n)) = none := by
        have hne : name ≠ n := fun e => hn e.symm
        simp [hne]
      rw [hlast, Option.or_none, if_neg hn]

/-- The keys of schedules are the same. -/
structure SameSchedules (s s' : Store) : Prop where
  entries : s'.schedules = s.schedules
  next : s'.schedulesNext = s.schedulesNext

theorem saddAll_sameSchedules (ks : List SKey) (id : JobId) : SameSchedules s (saddAll s ks id) := by
  obtain ⟨st, h⟩ := saddAll_eq s id ks
  rw [h]
  exact ⟨rfl, rfl⟩

theorem maybeMaterializeGroup_sameSchedules (g : String) (now : ℤ) :
    SameSchedules s (maybeMaterializeGroup s g now) := by
  obtain ⟨gm, gs, h⟩ := maybeMaterializeGroup_eq s g now
  rw [h]
  exact ⟨rfl, rfl⟩

theorem insertJob_sameSchedules (b : EnqueueArgs) (id : JobId) (now : ℤ) : SameSchedules s (insertJob s b id now) := by
  have hm : ∀ s₁ : Store, SameSchedules s s₁ →
      SameSchedules s (saddAll (maybeMaterializeGroup s₁ b.groupKey now) (b.tags.map .tagset) id) := by
    intro s₁ h₁
    have h₂ := maybeMaterializeGroup_sameSchedules s₁ b.groupKey now
    have h₃ := saddAll_sameSchedules (maybeMaterializeGroup s₁ b.groupKey now) (b.tags.map .tagset) id
    exact ⟨(h₃.entries.trans h₂.entries).trans h₁.entries, (h₃.next.trans h₂.next).trans h₁.next⟩
  have h := hm { ((s.hset id (b.toHash id now)).sadd (.queueset b.queue) id).sadd (.kindset b.kind) id with
    queuesSeen := s.queuesSeen.insert b.queue } ⟨rfl, rfl⟩
  unfold insertJob
  dsimp only
  split
  · exact ⟨h.entries, h.next⟩
  · exact ⟨h.entries, h.next⟩

/-- A fire touches the entry and the next run of its own schedule only. -/
theorem fnScheduleFire_other {n : String} (hn : n ≠ a.name) : (fnScheduleFire s a).1.schedule? n = s.schedule? n ∧
    (fnScheduleFire s a).1.schedulesNext.score? n = s.schedulesNext.score? n := by
  unfold fnScheduleFire
  split
  · exact ⟨rfl, rfl⟩
  · next e _ =>
    dsimp only
    generalize hs₁ : insertJob { s with idgen := s.idgen + 1 } a.toEnqueue (s.idgen + 1) a.now = s₁
    have hj := insertJob_sameSchedules { s with idgen := s.idgen + 1 } a.toEnqueue (s.idgen + 1) a.now
    rw [hs₁] at hj
    obtain ⟨l, hl⟩ := setSchedule_eq s₁ a.name { e with lastRunAtMs := a.now, nextRunAtMs := a.nextRun }
    refine ⟨?_, ?_⟩
    · have hset := schedule?_setSchedule s₁ a.name n { e with lastRunAtMs := a.now, nextRunAtMs := a.nextRun }
      rw [if_neg hn] at hset
      refine hset.trans ?_
      unfold Store.schedule?
      rw [hj.entries]
    · rw [ZSet.score?_add, if_neg hn, hl]
      show s₁.schedulesNext.score? n = s.schedulesNext.score? n
      rw [hj.next]

/-- A fire enqueues one job under the next id and moves its own schedule on. -/
theorem fnScheduleFire_own {e : ScheduleEntry} (h : s.schedule? a.name = some e) :
    (fnScheduleFire s a).1.schedule? a.name = some { e with lastRunAtMs := a.now, nextRunAtMs := a.nextRun } ∧
    (fnScheduleFire s a).1.schedulesNext.score? a.name = some a.nextRun ∧
    (fnScheduleFire s a).1.idgen = s.idgen + 1 ∧
    (fnScheduleFire s a).1.cell = Function.update s.cell (s.idgen + 1)
      ((s.cell (s.idgen + 1)).inserted a.toEnqueue (s.idgen + 1) a.now) := by
  unfold fnScheduleFire
  rw [h]
  dsimp only
  generalize hs₁ : insertJob { s with idgen := s.idgen + 1 } a.toEnqueue (s.idgen + 1) a.now = s₁
  have hset := schedule?_setSchedule s₁ a.name a.name { e with lastRunAtMs := a.now, nextRunAtMs := a.nextRun }
  obtain ⟨hcell, hid, _⟩ := setSchedule_sameJobs s₁ a.name { e with lastRunAtMs := a.now, nextRunAtMs := a.nextRun }
  rw [if_pos rfl] at hset
  refine ⟨hset, by rw [ZSet.score?_add, if_pos rfl], hid.trans ?_, hcell.trans ?_⟩
  · rw [← hs₁, insertJob_idgen]
  · rw [← hs₁, cell_insertJob]
    rfl

end Fire

/-! ## The loop -/

section Loop

variable {cron : Cron} {now clock : ℤ}

/-- What the loop over some due entries does: the live ones before the first dead one are fired, and every other schedule
and every older job is left alone. -/
structure Fires (cron : Cron) (now clock : ℤ) (es : List (String × ScheduleEntry)) (s s' : Store) : Prop where
  idgen : s.idgen ≤ s'.idgen
  old : ∀ i, i ≤ s.idgen → s'.cell i = s.cell i
  rest : ∀ n, n ∉ (es.takeWhile (ScheduleEntry.live cron now clock)).map Prod.fst →
    s'.schedule? n = s.schedule? n ∧ s'.schedulesNext.score? n = s.schedulesNext.score? n
  fired : ∀ x ∈ es.takeWhile (ScheduleEntry.live cron now clock), ∀ next, x.2.next cron x.1 now clock = .ok next →
    FiredIn x.1 x.2 s s' now next

/-- **The loop of `fire_due_schedules`.** -/
theorem fireEntries_fires : ∀ (es : List (String × ScheduleEntry)) (s : Store), (es.map Prod.fst).Nodup →
    (∀ x ∈ es, s.schedule? x.1 = some x.2) → Fires cron now clock es s (fireEntries cron now clock es s).1
  | [], s, _, _ => ⟨Nat.le_refl _, fun _ _ => rfl, fun _ _ => ⟨rfl, rfl⟩, fun x hx => absurd hx List.not_mem_nil⟩
  | (name, e) :: es, s, hn, hent => by
    obtain ⟨hname, hn⟩ := List.nodup_cons.mp hn
    cases hnext : e.next cron name now clock with
    | error err =>
      -- the loop ends here
      have hdead : ScheduleEntry.live cron now clock (name, e) = false := by simp [ScheduleEntry.live, hnext]
      have hs : (fireEntries cron now clock ((name, e) :: es) s).1 = s := by simp [fireEntries, hnext]
      have htw : ((name, e) :: es).takeWhile (ScheduleEntry.live cron now clock) = [] := by
        rw [List.takeWhile_cons, hdead]
        rfl
      rw [hs]
      refine ⟨Nat.le_refl _, fun _ _ => rfl, fun _ _ => ⟨rfl, rfl⟩, fun x hx => ?_⟩
      rw [htw] at hx
      exact absurd hx List.not_mem_nil
    | ok next =>
      have hlive : ScheduleEntry.live cron now clock (name, e) = true := by simp [ScheduleEntry.live, hnext]
      generalize hs₁ : (fnScheduleFire s (e.fireArgs name now next)).1 = s₁
      have hs : (fireEntries cron now clock ((name, e) :: es) s).1 = (fireEntries cron now clock es s₁).1 := by
        simp [fireEntries, hnext, hs₁]
      have htw : ((name, e) :: es).takeWhile (ScheduleEntry.live cron now clock) =
          (name, e) :: es.takeWhile (ScheduleEntry.live cron now clock) := by
        rw [List.takeWhile_cons, hlive]
        rfl
      have hother : ∀ n, n ≠ name → s₁.schedule? n = s.schedule? n ∧
          s₁.schedulesNext.score? n = s.schedulesNext.score? n := by
        intro n hne
        rw [← hs₁]
        exact fnScheduleFire_other s (e.fireArgs name now next) hne
      obtain ⟨hown, hscore, hid, hcell⟩ := fnScheduleFire_own s (e.fireArgs name now next)
        (hent _ List.mem_cons_self)
      rw [hs₁] at hown hscore hid hcell
      have hmem : ∀ x ∈ es, x.1 ≠ name := fun x hx he => hname (List.mem_map.mpr ⟨x, hx, he⟩)
      have ih := fireEntries_fires es s₁ hn
        (fun x hx => (hother x.1 (hmem x hx)).1.trans (hent x (List.mem_cons_of_mem _ hx)))
      have hnot : name ∉ (es.takeWhile (ScheduleEntry.live cron now clock)).map Prod.fst :=
        fun h => hname (List.Sublist.mem h (List.Sublist.map _ (List.takeWhile_sublist _)))
      have hle : s.idgen + 1 ≤ (fireEntries cron now clock es s₁).1.idgen := by
        rw [← hid]
        exact ih.idgen
      rw [hs]
      refine ⟨Nat.le_of_succ_le hle, fun i hi => ?_, fun n hno => ?_, fun x hx => ?_⟩
      · rw [ih.old i (by rw [hid]; exact Nat.le_succ_of_le hi), hcell, Function.update_of_ne]
        exact Nat.ne_of_lt (Nat.lt_succ_of_le hi)
      · rw [htw, List.map_cons, List.mem_cons, not_or] at hno
        exact ⟨(ih.rest n hno.2).1.trans (hother n hno.1).1, (ih.rest n hno.2).2.trans (hother n hno.1).2⟩
      · rw [htw] at hx
        rcases List.mem_cons.mp hx with rfl | hx
        · intro next' hnext'
          have hnn : next' = next := by
            rw [hnext] at hnext'
            exact (Except.ok.inj hnext').symm
          subst hnn
          have hnew := congrArg JobCell.fields (ih.old (s.idgen + 1) (by rw [hid]))
          rw [hcell, Function.update_self] at hnew
          have hnew := hnew.trans (inserted_fields (s.cell (s.idgen + 1)) (e.fireArgs name now next').toEnqueue (s.idgen + 1) now)
          refine ⟨⟨s.idgen + 1, Nat.lt_succ_self _, ?_⟩, ⟨_, (ih.rest name hnot).1.trans hown, rfl, rfl⟩,
            (ih.rest name hnot).2.trans hscore⟩
          rw [← Store.cell_fields, hnew]
          refine ⟨rfl, rfl, rfl, ?_⟩
          simp [EnqueueArgs.toHash, EnqueueArgs.effectiveScheduled, FireArgs.toEnqueue]
        · intro next' hnext'
          have hf := ih.fired x hx next' hnext'
          obtain ⟨i, hi, hij⟩ := hf.job
          exact ⟨⟨i, by rw [hid] at hi; exact Nat.lt_of_succ_lt hi, hij⟩, hf.entry, hf.score⟩

end Loop

/-! ## The tick -/

section Tick

variable {cron : Cron} {s : Store} {now clock : ℤ}

/-- What a due schedule needs from the due names before it: there are fewer than 128, and those with an entry are
live. -/
def Store.Unhindered (cron : Cron) (s : Store) (now clock : ℤ) (before : List String) : Prop :=
  before.length < dueBatchMax ∧
    ∀ m ∈ before, ∀ e, s.schedule? m = some e → ScheduleEntry.live cron now clock (m, e) = true

theorem mem_takeWhile_append_cons {α : Type} {p : α → Bool} {x : α} {l₁ l₂ : List α} (hx : x ∉ l₁) (hp : p x = true) :
    x ∈ (l₁ ++ x :: l₂).takeWhile p ↔ ∀ a ∈ l₁, p a = true := by
  induction l₁ with
  | nil => simp [hp]
  | cons a l₁ ih =>
    rw [List.mem_cons, not_or] at hx
    by_cases ha : p a = true
    · simp [ha, hx.1, ih hx.2]
    · simp [ha]

theorem schedule?_of_mem_dueList {x : String × ScheduleEntry} {n : Nat} (h : x ∈ fnScheduleDueList s now n) :
    s.schedule? x.1 = some x.2 := by
  obtain ⟨m, _, hm⟩ := List.mem_filterMap.mp h
  obtain ⟨e, he, rfl⟩ := Option.map_eq_some_iff.mp hm
  exact he

/-- The names of the due list are due names. -/
theorem dueList_names (s : Store) (now : ℤ) (n : Nat) :
    (fnScheduleDueList s now n).map Prod.fst = ((s.dueNames now).take n).filter (fun m => (s.schedule? m).isSome) := by
  unfold fnScheduleDueList Store.dueNames ZSet.rangeByScore
  generalize ((s.schedulesNext.entries.filter _).map Prod.snd).take n = l
  induction l with
  | nil => rfl
  | cons m l ih =>
    cases hm : s.schedule? m with
    | none => simp [hm, ih]
    | some e => simp [hm, ih]

theorem dueNames_nodup (s : Store) (now : ℤ) : (s.dueNames now).Nodup :=
  s.schedulesNext.nodup.sublist (List.Sublist.map _ List.filter_sublist)

theorem dueList_nodup (s : Store) (now : ℤ) (n : Nat) : ((fnScheduleDueList s now n).map Prod.fst).Nodup := by
  rw [dueList_names]
  exact (dueNames_nodup s now).sublist (List.filter_sublist.trans (List.take_sublist _ _))

/-- A live entry comes before the first dead one exactly when nothing before it hinders it. -/
theorem mem_takeWhile_dueList {l₁ l₂ : List String} {name : String} {e : ScheduleEntry}
    (hl : s.dueNames now = l₁ ++ name :: l₂) (he : s.schedule? name = some e)
    (hlive : ScheduleEntry.live cron now clock (name, e) = true) :
    (name, e) ∈ (fnScheduleDueList s now dueBatchMax).takeWhile (ScheduleEntry.live cron now clock) ↔
      s.Unhindered cron now clock l₁ := by
  have hnd := dueNames_nodup s now
  rw [hl, List.nodup_append'] at hnd
  have hname : name ∉ l₁ := fun h => hnd.2.2 h List.mem_cons_self
  by_cases hlen : l₁.length < dueBatchMax
  · have htake : (s.dueNames now).take dueBatchMax = l₁ ++ name :: l₂.take (dueBatchMax - l₁.length - 1) := by
      rw [hl, List.take_append, List.take_of_length_le (Nat.le_of_lt hlen)]
      obtain ⟨k, hk⟩ : ∃ k, dueBatchMax - l₁.length = k + 1 := ⟨dueBatchMax - l₁.length - 1, by omega⟩
      rw [hk, List.take_succ_cons]
      rfl
    have hlist : fnScheduleDueList s now dueBatchMax = l₁.filterMap (fun n => (s.schedule? n).map (fun e => (n, e))) ++
        (name, e) :: (l₂.take (dueBatchMax - l₁.length - 1)).filterMap (fun n => (s.schedule? n).map (fun e => (n, e))) := by
      show ((s.dueNames now).take dueBatchMax).filterMap _ = _
      rw [htake, List.filterMap_append, List.filterMap_cons, he]
      rfl
    have hfm : ∀ x : String × ScheduleEntry, x ∈ l₁.filterMap (fun n => (s.schedule? n).map (fun e => (n, e))) ↔
        x.1 ∈ l₁ ∧ s.schedule? x.1 = some x.2 := by
      intro x
      rw [List.mem_filterMap]
      constructor
      · rintro ⟨m, hm, hx⟩
        obtain ⟨e', he', rfl⟩ := Option.map_eq_some_iff.mp hx
        exact ⟨hm, he'⟩
      · rintro ⟨hm, hx⟩
        exact ⟨x.1, hm, by rw [hx]; rfl⟩
    rw [hlist, mem_takeWhile_append_cons (fun h => hname ((hfm _).mp h).1) hlive]
    constructor
    · exact fun h => ⟨hlen, fun m hm e' he' => h (m, e') ((hfm _).mpr ⟨hm, he'⟩)⟩
    · exact fun h x hx => h.2 x.1 ((hfm x).mp hx).1 x.2 ((hfm x).mp hx).2
  · -- 128 due names come first: the batch ends before this one
    refine ⟨fun h => ?_, fun h => absurd h.1 hlen⟩
    have hmem : name ∈ (s.dueNames now).take dueBatchMax := by
      have hn := List.mem_map_of_mem (f := Prod.fst) (List.Sublist.mem h (List.takeWhile_sublist _))
      rw [dueList_names] at hn
      exact (List.mem_filter.mp hn).1
    rw [hl, List.take_append_of_le_length (Nat.not_lt.mp hlen)] at hmem
    exact absurd (List.mem_of_mem_take hmem) hname

/-- A next run lies after the tick. -/
theorem ScheduleEntry.next_later (hcron : cron.Later) (hle : now ≤ clock) {e : ScheduleEntry} {name : String} {next : ℤ}
    (h : e.next cron name now clock = .ok next) : now < next := by
  unfold ScheduleEntry.next at h
  split at h
  · next hi =>
    cases h
    omega
  split at h
  · cases h
  · unfold Cron.nextRun at h
    split at h
    · cases h
    · next f hf =>
      split at h
      · next t ht =>
        cases h
        exact Int.lt_of_le_of_lt hle (hcron _ f hf _ _ ht)
      · cases h

/-- **When a tick fires every live due schedule**: nothing due before one of them hinders it. -/
theorem tickFiresLive_iff (hcron : cron.Later) (hle : now ≤ clock) : s.TickFiresLive cron now clock ↔
    ∀ l₁ name l₂ e, s.dueNames now = l₁ ++ name :: l₂ → s.schedule? name = some e → e.enabled = 1 →
      ScheduleEntry.live cron now clock (name, e) = true → s.Unhindered cron now clock l₁ := by
  have hf : Fires cron now clock (fnScheduleDueList s now dueBatchMax) s (fireDueSchedules cron s now clock).1 :=
    fireEntries_fires _ s (dueList_nodup s now _) (fun _ hx => schedule?_of_mem_dueList hx)
  constructor
  · intro h l₁ name l₂ e hl he hen hlive
    rw [← mem_takeWhile_dueList hl he hlive]
    have hmem : name ∈ s.dueNames now := by
      rw [hl]
      exact List.mem_append_right _ List.mem_cons_self
    obtain ⟨next, hnext⟩ : ∃ next, e.next cron name now clock = .ok next := by
      unfold ScheduleEntry.live at hlive
      split at hlive
      · next next hnext => exact ⟨next, hnext⟩
      · cases hlive
    -- a schedule that is not fired keeps a score that is due
    by_contra hno
    have hno' : name ∉ ((fnScheduleDueList s now dueBatchMax).takeWhile (ScheduleEntry.live cron now clock)).map
        Prod.fst := by
      intro hn
      obtain ⟨x, hx, rfl⟩ := List.mem_map.mp hn
      have hxe := schedule?_of_mem_dueList (List.Sublist.mem hx (List.takeWhile_sublist _))
      rw [he, Option.some.injEq] at hxe
      subst hxe
      exact hno hx
    have hscore := (hf.rest name hno').2
    rw [(h name hmem e he hen next hnext).score] at hscore
    obtain ⟨x, hx, hxn⟩ := List.mem_map.mp hmem
    have hx' := List.mem_filter.mp hx
    have hold : s.schedulesNext.score? name = some x.1 := ZSet.mem_entries_iff.mp (hxn ▸ hx'.1)
    rw [hold, Option.some.injEq] at hscore
    have hlater := ScheduleEntry.next_later hcron hle hnext
    have hdue : x.1 ≤ now := by simpa using hx'.2
    omega
  · intro h name hmem e he hen next hnext
    obtain ⟨l₁, l₂, hl⟩ := List.append_of_mem hmem
    have hlive : ScheduleEntry.live cron now clock (name, e) = true := by simp [ScheduleEntry.live, hnext]
    exact hf.fired (name, e) ((mem_takeWhile_dueList hl he hlive).mpr (h l₁ name l₂ e hl he hen hlive)) next hnext

end Tick

end Eddyq.Redis
