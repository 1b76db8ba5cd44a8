import Eddyq.Lib.Runs
import Mathlib.Algebra.Order.Group.Int
import Mathlib.Tactic.Linarith

/-!
# Elections for a lease

An `Electorate` is a store with one lease for each role. Workers ask for the lease of a role for some time (`elect`) and
give it back (`resign`); what the calls can do is said once, by its laws. `free` says how long after its end a lease may
go to somebody else. A `Term` adds the time of the last call and, for each worker, its last successful election that it
has not resigned from: that is what it means to hold a lease (`Term.Holds`).

`Term.Reached.exclusive` is the exclusion over whole runs: at every time at most one worker holds the lease of a role,
its refresh succeeds, and no call of another worker touches the lease.
-/

namespace Eddyq.Lib

/-- Who has the lease, and when it ends. -/
structure Tenure (W : Type) where
  worker : W
  expires : ℤ
  deriving DecidableEq

section Electorate

variable (σ R W : Type)

/-- A store of leases. An election answers `none` for an error. -/
structure Electorate where
  row : σ → R → Option (Tenure W)
  /-- A lease that ended that long ago may go to somebody else. -/
  free : ℤ → Prop
  /-- The time that a lease of the given length lasts. -/
  span : ℕ → ℕ
  elect : σ → R → W → ℕ → ℤ → Option Bool × σ
  resign : σ → R → W → ℤ → σ
  not_free : ∀ d < 0, ¬ free d
  free_mono : ∀ {d d'}, d ≤ d' → free d → free d'
  /-- Only the own lease is refreshed and only a free one is taken; a lease of length zero may be gone at once. -/
  won : ∀ {s r w l now s'}, elect s r w l now = (some true, s') →
    (∀ x, row s r = some x → x.worker = w ∨ free (now - x.expires)) ∧
      (0 < span l → row s' r = some ⟨w, now + span l⟩) ∧ ∀ r', r' ≠ r → row s' r' = row s r'
  not_won : ∀ {s r w l now o s'}, elect s r w l now = (o, s') → o ≠ some true →
    row s' = row s ∧ ∀ x, row s r = some x → x.worker = w → free (now - x.expires)
  resigned : ∀ {s r w now}, (∀ x, row s r = some x → x.worker ≠ w → row (resign s r w now) r = some x) ∧
    ∀ r', r' ≠ r → row (resign s r w now) r' = row s r'

/-- A store that makes nobody wait for longer than it has to. -/
structure Electorate.Prompt (C : Electorate σ R W) : Prop where
  /-- A lease that has ended may be taken at once. -/
  free_pos : ∀ d > 0, C.free d
  /-- Who is refused finds a lease that may not be taken. -/
  refused : ∀ {s r w l now s'}, C.elect s r w l now = (some false, s') →
    ∃ x, C.row s r = some x ∧ ¬ C.free (now - x.expires)
  /-- A lease that is given back lasts no longer. -/
  yields : ∀ {s r w now x}, C.row (C.resign s r w now) r = some x → C.row s r = some x ∨ x.expires ≤ now

/-- The store at the time of its last call, with the last election of each worker that it has not resigned from. -/
structure Term where
  store : σ
  time : ℤ
  last : R → W → Option (ℤ × ℕ) := fun _ _ => none

end Electorate

/-- A call of a worker. -/
inductive Call (R W : Type)
  | elect (r : R) (w : W) (l : ℕ) (now : ℤ)
  | resign (r : R) (w : W) (now : ℤ)
  deriving DecidableEq

section Term

variable {σ R W : Type}

def Call.worker : Call R W → W
  | .elect _ w _ _ | .resign _ w _ => w

def Call.role : Call R W → R
  | .elect r _ _ _ | .resign r _ _ => r

def Call.now : Call R W → ℤ
  | .elect _ _ _ now | .resign _ _ now => now

variable [DecidableEq R] [DecidableEq W]

/-- The table of last elections with one entry changed. -/
def note (last : R → W → Option (ℤ × ℕ)) (r : R) (w : W) (e : Option (ℤ × ℕ)) : R → W → Option (ℤ × ℕ) :=
  fun r' w' => if r' = r ∧ w' = w then e else last r' w'

theorem note_self {last : R → W → Option (ℤ × ℕ)} {r : R} {w : W} {e : Option (ℤ × ℕ)} : note last r w e r w = e :=
  if_pos ⟨rfl, rfl⟩

theorem note_of_ne {last : R → W → Option (ℤ × ℕ)} {r r' : R} {w w' : W} {e : Option (ℤ × ℕ)} (h : ¬ (r' = r ∧ w' = w)) :
    note last r w e r' w' = last r' w' :=
  if_neg h

variable (C : Electorate σ R W)

def Term.call (z : Term σ R W) : Call R W → Term σ R W
  | .elect r w l now =>
    match C.elect z.store r w l now with
    | (some true, s) => { store := s, time := now, last := note z.last r w (some (now, C.span l)) }
    | (_, s) => { z with store := s, time := now }
  | .resign r w now => { store := C.resign z.store r w now, time := now, last := note z.last r w none }

/-- The terms that calls lead to, from any store, by a clock that does not go back. -/
def Term.Reached (z : Term σ R W) : Prop :=
  ∃ s t, Reach (fun z c z' => z.time ≤ c.now ∧ z' = z.call C c) ⟨s, t, fun _ _ => none⟩ z

/-- The worker holds the lease at that time. -/
def Term.Holds (z : Term σ R W) (r : R) (w : W) (t : ℤ) : Prop := ∃ t₀ l, z.last r w = some (t₀, l) ∧ t < t₀ + l

/-- The exclusion, from the last call on. -/
structure Term.Exclusive (z : Term σ R W) : Prop where
  one : ∀ r w w' t, z.time ≤ t → z.Holds r w t → z.Holds r w' t → w = w'
  refresh : ∀ r w l now, z.time ≤ now → z.Holds r w now → (C.elect z.store r w l now).1 = some true
  kept : ∀ r w (c : Call R W), z.time ≤ c.now → z.Holds r w c.now → c.worker ≠ w →
    C.row (z.call C c).store r = C.row z.store r ∧ (z.call C c).last r w = z.last r w

/-- A lease that nobody else may take is in the store. -/
def Term.Filed (z : Term σ R W) : Prop :=
  ∀ r w t₀ l, z.last r w = some (t₀, l) →
    t₀ ≤ z.time ∧ (0 < l → ¬ C.free (z.time - (t₀ + l)) → C.row z.store r = some ⟨w, t₀ + l⟩)

variable {C} {z : Term σ R W} {r : R} {w : W} {l : ℕ} {now t : ℤ}

omit [DecidableEq R] [DecidableEq W] in
/-- A lease that may not be taken at some time is in the store until then. -/
theorem Term.Filed.row (hz : z.Filed C) {t₀ : ℤ} (hlast : z.last r w = some (t₀, l)) (hl : 0 < l) (ht : z.time ≤ t)
    (hfree : ¬ C.free (t - (t₀ + l))) : C.row z.store r = some ⟨w, t₀ + l⟩ :=
  (hz r w t₀ l hlast).2 hl (fun h => hfree (C.free_mono (by omega) h))

omit [DecidableEq R] [DecidableEq W] in
/-- A held lease is in the store. -/
theorem Term.Filed.holds_row (hz : z.Filed C) (ht : z.time ≤ t) (h : z.Holds r w t) :
    ∃ t₀ l, z.last r w = some (t₀, l) ∧ t < t₀ + l ∧ C.row z.store r = some ⟨w, t₀ + l⟩ := by
  obtain ⟨t₀, l, hlast, hlt⟩ := h
  have h₀ := (hz r w t₀ l hlast).1
  exact ⟨t₀, l, hlast, hlt, hz.row hlast (by omega) ht (C.not_free _ (by omega))⟩

theorem Term.call_time (c : Call R W) : (z.call C c).time = c.now := by
  cases c with
  | elect r w l now =>
    simp only [Term.call]
    split <;> rfl
  | resign => rfl

/-- What an election does to the term. -/
theorem Term.call_elect (z : Term σ R W) (r : R) (w : W) (l : ℕ) (now : ℤ) :
    ((C.elect z.store r w l now).1 = some true ∧
      (∀ x, C.row z.store r = some x → x.worker = w ∨ C.free (now - x.expires)) ∧
      (0 < C.span l → C.row (z.call C (.elect r w l now)).store r = some ⟨w, now + C.span l⟩) ∧
      (∀ r', r' ≠ r → C.row (z.call C (.elect r w l now)).store r' = C.row z.store r') ∧
      (z.call C (.elect r w l now)).last = note z.last r w (some (now, C.span l))) ∨
    ((C.elect z.store r w l now).1 ≠ some true ∧
      (∀ x, C.row z.store r = some x → x.worker = w → C.free (now - x.expires)) ∧
      C.row (z.call C (.elect r w l now)).store = C.row z.store ∧ (z.call C (.elect r w l now)).last = z.last) := by
  rcases h : C.elect z.store r w l now with ⟨o, s⟩
  by_cases ho : o = some true
  · subst ho
    obtain ⟨hfree, hrow, hother⟩ := C.won h
    refine .inl ⟨rfl, hfree, ?_, ?_, ?_⟩ <;> simp only [Term.call, h]
    · exact hrow
    · exact hother
  · obtain ⟨hrow, hfree⟩ := C.not_won h ho
    have hcall : z.call C (.elect r w l now) = { z with store := s, time := now } := by
      simp only [Term.call, h]
    rw [hcall]
    exact .inr ⟨ho, hfree, hrow, rfl⟩

/-- A call only touches the last election of its own worker, for its own role. -/
theorem Term.call_last (z : Term σ R W) (c : Call R W) (hne : ¬ (r = c.role ∧ w = c.worker)) :
    (z.call C c).last r w = z.last r w := by
  cases c with
  | elect r' w' l' now =>
    rcases z.call_elect (C := C) r' w' l' now with ⟨_, _, _, _, hlast⟩ | ⟨_, _, _, hlast⟩
    · rw [hlast]
      exact note_of_ne hne
    · rw [hlast]
  | resign r' w' now => exact note_of_ne hne

/-- A call only touches the lease of its own role. -/
theorem Term.call_row (z : Term σ R W) (c : Call R W) (hne : r ≠ c.role) :
    C.row (z.call C c).store r = C.row z.store r := by
  cases c with
  | elect r' w' l' now =>
    rcases z.call_elect (C := C) r' w' l' now with ⟨_, _, _, hother, _⟩ | ⟨_, _, hsame, _⟩
    · exact hother r hne
    · rw [hsame]
  | resign r' w' now => exact C.resigned.2 r hne

/-- A lease of somebody else that may not be taken stays. -/
theorem Term.call_kept (z : Term σ R W) (c : Call R W) {x : Tenure W} (hrow : C.row z.store r = some x)
    (hfree : ¬ C.free (c.now - x.expires)) (hne : c.worker ≠ x.worker) : C.row (z.call C c).store r = some x := by
  by_cases hr : r = c.role
  · subst hr
    cases c with
    | elect r w l now =>
      rcases z.call_elect (C := C) r w l now with ⟨_, hpre, _⟩ | ⟨_, _, hsame, _⟩
      · rcases hpre x hrow with h | h
        · exact absurd h.symm hne
        · exact absurd h hfree
      · rw [hsame]
        exact hrow
    | resign r w now => exact C.resigned.1 x hrow (fun h => hne h.symm)
  · rw [z.call_row c hr, hrow]

theorem Term.Filed.call (hz : z.Filed C) (c : Call R W) (hnow : z.time ≤ c.now) : (z.call C c).Filed C := by
  intro r w t₀ l hlast
  rw [Term.call_time]
  by_cases hkey : r = c.role ∧ w = c.worker
  · obtain ⟨rfl, rfl⟩ := hkey
    cases c with
    | elect r w l' now =>
      rcases z.call_elect (C := C) r w l' now with ⟨_, _, hrow, _, hlast'⟩ | ⟨_, _, hsame, hlast'⟩
      · rw [hlast'] at hlast
        obtain ⟨rfl, rfl⟩ := Prod.mk.inj (Option.some.inj (note_self.symm.trans hlast))
        exact ⟨le_rfl, fun hl _ => hrow hl⟩
      · rw [hlast'] at hlast
        refine ⟨(hz _ _ _ _ hlast).1.trans hnow, fun hl hfree => ?_⟩
        rw [hsame]
        exact hz.row hlast hl hnow hfree
    | resign r w now => exact nomatch note_self.symm.trans hlast
  · rw [z.call_last c hkey] at hlast
    refine ⟨(hz _ _ _ _ hlast).1.trans hnow, fun hl hfree => ?_⟩
    have hrow := hz.row hlast hl hnow hfree
    by_cases hr : r = c.role
    · exact z.call_kept c hrow hfree (fun hw => hkey ⟨hr, hw.symm⟩)
    · rw [z.call_row c hr, hrow]

theorem Term.Reached.call (h : z.Reached C) (c : Call R W) (hnow : z.time ≤ c.now) : (z.call C c).Reached C := by
  obtain ⟨s, t, hr⟩ := h
  exact ⟨s, t, hr.step (a := c) ⟨hnow, rfl⟩⟩

theorem Term.Reached.filed (h : z.Reached C) : z.Filed C := by
  obtain ⟨s, t, hr⟩ := h
  refine hr.inv (fun r w t₀ l hlast => nomatch hlast) ?_
  rintro z c _ hz ⟨hnow, rfl⟩
  exact hz.call c hnow

/-- **Lease exclusion**: in every term that calls lead to, at most one worker holds the lease of a role, its refresh
succeeds, and the calls of others do not touch it. -/
theorem Term.Reached.exclusive (h : z.Reached C) : z.Exclusive C where
  one r w w' t ht hw hw' := by
    obtain ⟨t₀, l, _, _, hrow⟩ := h.filed.holds_row ht hw
    obtain ⟨t₁, l', _, _, hrow'⟩ := h.filed.holds_row ht hw'
    exact congrArg Tenure.worker (Option.some.inj (hrow.symm.trans hrow'))
  refresh r w l now ht hw := by
    obtain ⟨t₀, l', _, hlt, hrow⟩ := h.filed.holds_row ht hw
    rcases z.call_elect (C := C) r w l now with ⟨hwon, _⟩ | ⟨_, hfree, _⟩
    · exact hwon
    · exact absurd (hfree _ hrow rfl) (C.not_free _ (by simp only; omega))
  kept r w c ht hw hne := by
    obtain ⟨t₀, l, _, hlt, hrow⟩ := h.filed.holds_row ht hw
    have hfree : ¬ C.free (c.now - (t₀ + l)) := C.not_free _ (by omega)
    exact ⟨(z.call_kept c hrow hfree hne).trans hrow.symm, z.call_last c (fun h => hne h.2.symm)⟩

end Term

end Eddyq.Lib
