import Eddyq.Job
import Mathlib.Logic.Relation
import Mathlib.Logic.Function.Basic

/-!
# A line of jobs, abstractly

What the Redis backend is for, with no key in sight: a table of jobs, each in one state, and a reservation for every
unique key. A job is inserted with a fresh id, moves between live states, is finished, and is deleted once finished
(`Line.Step`). Finishing and deleting release a reservation by the rule of the library, which lets an owner value of
`1` be dropped by any job (`Line.release`).

* `Line.Sound`: the reservation of a unique key is held by its one live job, and that job is the newest with the key.
* `Line.Sound.step`: every step keeps this; in particular a deletion releases nothing (`Line.Sound.release_of_done`).
-/

namespace Eddyq.Redis

/-- What the store knows about a job, whatever key it is kept under. -/
structure JobInfo where
  state : JobState
  queue : String
  group : String
  kind : String
  unique : String
  tags : List String

/-- The job table, the reservations and the id counter. -/
structure Line where
  idgen : Nat := 0
  jobs : JobId → Option JobInfo := fun _ => none
  unique : String → Option JobId := fun _ => none

/-- The reservations after a job with the unique key `u` lets go of it. -/
def Line.release (A : Line) (u : String) (id : JobId) : String → Option JobId :=
  if u ≠ "" ∧ (A.unique u = some id ∨ A.unique u = some 1) then Function.update A.unique u none else A.unique

/-- The reservations after a new job with the unique key `u`. -/
def Line.reserve (A : Line) (u : String) (id : JobId) : String → Option JobId :=
  if u ≠ "" then Function.update A.unique u (some id) else A.unique

/-- The line with one job rewritten. -/
def Line.set (A : Line) (id : JobId) (o : Option JobInfo) : Line := { A with jobs := Function.update A.jobs id o }

/-- One job moves. -/
inductive Line.Step : Line → Line → Prop
  | insert {A : Line} (i : JobInfo) (live : ¬ i.state.terminal) (free : i.unique ≠ "" → A.unique i.unique = none) :
      Line.Step A { idgen := A.idgen + 1, jobs := Function.update A.jobs (A.idgen + 1) (some i),
                    unique := A.reserve i.unique (A.idgen + 1) }
  | move {A : Line} {id : JobId} {i : JobInfo} (st : JobState) (job : A.jobs id = some i)
      (live : ¬ i.state.terminal) (live' : ¬ st.terminal) : Line.Step A (A.set id (some { i with state := st }))
  | finish {A : Line} {id : JobId} {i : JobInfo} (st : JobState) (job : A.jobs id = some i)
      (live : ¬ i.state.terminal) (done : st.terminal) :
      Line.Step A { A.set id (some { i with state := st }) with unique := A.release i.unique id }
  | delete {A : Line} {id : JobId} {i : JobInfo} (job : A.jobs id = some i) (done : i.state.terminal) :
      Line.Step A { A.set id none with unique := A.release i.unique id }

/-- Any number of moves. -/
def Line.Steps : Line → Line → Prop := Relation.ReflTransGen Line.Step

/-! ## Reservations -/

/-- Ids are dealt out in order, and the reservation of a key is held by its one live job, the newest with that key. -/
structure Line.Sound (A : Line) : Prop where
  idgen : ∀ id i, A.jobs id = some i → 1 ≤ id ∧ id ≤ A.idgen
  blank : A.unique "" = none
  reserved : ∀ u id, u ≠ "" →
    (A.unique u = some id ↔ ∃ i, A.jobs id = some i ∧ ¬ i.state.terminal ∧ i.unique = u)
  newest : ∀ id id' i i', A.jobs id = some i → A.jobs id' = some i' → i.unique = i'.unique → i.unique ≠ "" →
    ¬ i.state.terminal → id' ≤ id

namespace Line.Sound

variable {A A' : Line} {id : JobId} {i : JobInfo}

/-- Two live jobs with one key are one job. -/
theorem live_unique (h : A.Sound) {id' : JobId} {i' : JobInfo} (hj : A.jobs id = some i) (hj' : A.jobs id' = some i')
    (hu : i.unique = i'.unique) (hne : i.unique ≠ "") (hl : ¬ i.state.terminal) (hl' : ¬ i'.state.terminal) :
    id = id' :=
  le_antisymm (h.newest id' id i' i hj' hj hu.symm (hu ▸ hne) hl') (h.newest id id' i i' hj hj' hu hne hl)

/-- A finished job holds no reservation, and a reservation held by job 1 is not one that a later job's teardown
could drop by the legacy rule. -/
theorem release_of_done (h : A.Sound) (hj : A.jobs id = some i) (hd : i.state.terminal) :
    A.release i.unique id = A.unique := by
  refine if_neg ?_
  rintro ⟨hne, ho | ho⟩
  · obtain ⟨i', hj', hl, _⟩ := (h.reserved _ _ hne).mp ho
    rw [hj] at hj'
    cases hj'
    exact hl hd
  · obtain ⟨i', hj', hl, hu⟩ := (h.reserved _ _ hne).mp ho
    -- job 1 is live and the newest with this key, so the finished job is job 1 itself
    have h1 : id ≤ 1 := h.newest 1 id i' i hj' hj hu (hu ▸ hne) hl
    have h2 : id = 1 := le_antisymm h1 (h.idgen id i hj).1
    subst h2
    rw [hj] at hj'
    cases hj'
    exact hl hd

/-- Finishing a live job frees its key. -/
theorem release_of_live (h : A.Sound) (hj : A.jobs id = some i) (hl : ¬ i.state.terminal) (hne : i.unique ≠ "") :
    A.release i.unique id = Function.update A.unique i.unique none :=
  if_pos ⟨hne, Or.inl ((h.reserved _ _ hne).mpr ⟨i, hj, hl, rfl⟩)⟩

theorem init : Line.Sound {} where
  idgen := by simp
  blank := rfl
  reserved := by simp
  newest := by simp

theorem insert (h : A.Sound) (i : JobInfo) (live : ¬ i.state.terminal)
    (free : i.unique ≠ "" → A.unique i.unique = none) :
    Line.Sound { idgen := A.idgen + 1, jobs := Function.update A.jobs (A.idgen + 1) (some i),
                 unique := A.reserve i.unique (A.idgen + 1) } := by
  have hnew : A.jobs (A.idgen + 1) = none := by
    cases hj : A.jobs (A.idgen + 1) with
    | none => rfl
    | some j => exact absurd (h.idgen _ j hj).2 (Nat.not_succ_le_self _)
  refine ⟨fun id j hj => ?_, ?_, fun u id hu => ?_, fun id id' j j' hj hj' hu hne hl => ?_⟩
  · by_cases hid : id = A.idgen + 1
    · subst hid; exact ⟨Nat.succ_pos _, le_refl _⟩
    · simp only [Function.update_of_ne hid] at hj
      exact ⟨(h.idgen id j hj).1, Nat.le_succ_of_le (h.idgen id j hj).2⟩
  · simp only [Line.reserve]
    split
    · next hne => rw [Function.update_of_ne (Ne.symm hne)]; exact h.blank
    · exact h.blank
  · by_cases hid : id = A.idgen + 1
    · subst hid
      have hold : A.unique u ≠ some (A.idgen + 1) := by
        intro ho
        obtain ⟨j, hj, _⟩ := (h.reserved u _ hu).mp ho
        rw [hnew] at hj
        cases hj
      by_cases hui : u = i.unique
      · subst hui
        simp [Line.reserve, hu, live]
      · have hui' : i.unique ≠ u := fun e => hui e.symm
        simp only [Line.reserve, Function.update_self, Option.some.injEq, exists_eq_left', hui', and_false, iff_false]
        split
        · rw [Function.update_of_ne hui]; exact hold
        · exact hold
    · simp only [Function.update_of_ne hid]
      by_cases hui : u = i.unique
      · subst hui
        have hno := h.reserved _ id hu
        rw [free hu] at hno
        simp only [Line.reserve, hu, ne_eq, not_false_eq_true, if_true, Function.update_self, Option.some.injEq]
        constructor
        · intro e; exact absurd e.symm hid
        · intro e; cases hno.mpr e
      · simp only [Line.reserve]
        split
        · rw [Function.update_of_ne hui]; exact h.reserved u id hu
        · exact h.reserved u id hu
  · by_cases hid' : id' = A.idgen + 1
    · subst hid'
      by_cases hid : id = A.idgen + 1
      · exact hid.ge
      · -- a live job with the key of the new one would hold its reservation
        simp only [Function.update_self, Option.some.injEq] at hj'
        subst hj'
        simp only [Function.update_of_ne hid] at hj
        have hr := (h.reserved _ id hne).mpr ⟨j, hj, hl, rfl⟩
        rw [hu, free (hu ▸ hne)] at hr
        cases hr
    · simp only [Function.update_of_ne hid'] at hj'
      by_cases hid : id = A.idgen + 1
      · subst hid
        exact Nat.le_succ_of_le (h.idgen id' j' hj').2
      · simp only [Function.update_of_ne hid] at hj
        exact h.newest id id' j j' hj hj' hu hne hl

/-- Rewriting the state of a live job, with its key freed when the new state is final. -/
theorem rewrite (h : A.Sound) (hj : A.jobs id = some i) (hl : ¬ i.state.terminal) (st : JobState)
    {un : String → Option JobId} (hun : un = if st.terminal ∧ i.unique ≠ "" then
      Function.update A.unique i.unique none else A.unique) :
    Line.Sound { A.set id (some { i with state := st }) with unique := un } := by
  have hjob : ∀ id' j, Function.update A.jobs id (some { i with state := st }) id' = some j →
      ∃ j', A.jobs id' = some j' ∧ j'.unique = j.unique ∧ (¬ j.state.terminal → ¬ j'.state.terminal) := by
    intro id' j hj'
    by_cases hid : id' = id
    · subst hid
      simp only [Function.update_self, Option.some.injEq] at hj'
      subst hj'
      exact ⟨i, hj, rfl, fun _ => hl⟩
    · rw [Function.update_of_ne hid] at hj'
      exact ⟨j, hj', rfl, fun hn => hn⟩
  have hunique : ∀ u id', u ≠ "" → (un u = some id' ↔ A.unique u = some id' ∧ ¬ (st.terminal ∧ id' = id)) := by
    intro u id' hu
    have hown : i.unique = u → (A.unique u = some id' ↔ id' = id) := by
      rintro rfl
      rw [(h.reserved _ id hu).mpr ⟨i, hj, hl, rfl⟩, Option.some.injEq, eq_comm]
    have hother : i.unique ≠ u → A.unique u = some id' → id' ≠ id := by
      rintro hne ho rfl
      obtain ⟨j, hj', _, hju⟩ := (h.reserved u id' hu).mp ho
      rw [hj] at hj'
      cases hj'
      exact hne hju
    subst hun
    by_cases hiu : i.unique = u
    · subst hiu
      by_cases hst : st.terminal <;> simp [hst, hu, hown rfl]
    · have hiu' : u ≠ i.unique := fun e => hiu e.symm
      split <;> simp [Function.update_of_ne hiu'] <;> exact fun ho _ => hother hiu ho
  refine ⟨fun id' j hj' => ?_, ?_, fun u id' hu => ?_, fun id₁ id₂ j₁ j₂ h₁ h₂ hu hne hl₁ => ?_⟩
  · obtain ⟨j', h', _⟩ := hjob id' j hj'
    exact h.idgen id' j' h'
  · subst hun
    simp only
    split
    · next hc => rw [Function.update_of_ne (Ne.symm hc.2)]; exact h.blank
    · exact h.blank
  · rw [hunique u id' hu, h.reserved u id' hu]
    by_cases hid : id' = id
    · subst hid
      simp [Line.set, hj, hl, and_comm]
    · simp [Line.set, hid]
  · obtain ⟨j₁', h₁', hu₁, hl₁'⟩ := hjob id₁ j₁ h₁
    obtain ⟨j₂', h₂', hu₂, _⟩ := hjob id₂ j₂ h₂
    exact h.newest id₁ id₂ j₁' j₂' h₁' h₂' (by rw [hu₁, hu₂, hu]) (hu₁ ▸ hne) (hl₁' hl₁)

theorem delete (h : A.Sound) (hj : A.jobs id = some i) (hd : i.state.terminal) :
    Line.Sound (A.set id none) := by
  have hjob : ∀ id' j, Function.update A.jobs id none id' = some j → A.jobs id' = some j := by
    intro id' j hj'
    by_cases hid : id' = id
    · subst hid; simp at hj'
    · rwa [Function.update_of_ne hid] at hj'
  refine ⟨fun id' j hj' => h.idgen id' j (hjob id' j hj'), h.blank, fun u id' hu => ?_,
    fun id₁ id₂ j₁ j₂ h₁ h₂ => h.newest id₁ id₂ j₁ j₂ (hjob _ _ h₁) (hjob _ _ h₂)⟩
  by_cases hid : id' = id
  · subst hid
    have hr := h.reserved u id' hu
    simp only [hj, Option.some.injEq, exists_eq_left', hd, not_true_eq_false, false_and, iff_false] at hr
    simp [Line.set, hr]
  · simp only [Line.set, Function.update_of_ne hid]
    exact h.reserved u id' hu

/-- **Every step keeps the reservations sound.** -/
theorem step (h : A.Sound) (hs : Line.Step A A') : A'.Sound := by
  cases hs with
  | insert i live free => exact h.insert i live free
  | move st job live live' => exact h.rewrite job live st (by simp [live'])
  | @finish id i st job live done =>
    refine h.rewrite job live st ?_
    by_cases hne : i.unique = ""
    · simp [Line.release, hne]
    · rw [h.release_of_live job live hne, if_pos ⟨done, hne⟩]
  | delete job done =>
    rw [h.release_of_done job done]
    exact h.delete job done

theorem steps (h : A.Sound) (hs : A.Steps A') : A'.Sound := by
  induction hs with
  | refl => exact h
  | tail _ hstep ih => exact ih.step hstep

end Line.Sound

end Eddyq.Redis
