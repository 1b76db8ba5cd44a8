import Eddyq.Lib.Runs

/-!
# Rosters

A store leases jobs to processes, and a process knows its jobs by their ids: the reply of a claim is on its way to it
(`arriving`), it works on some (`inFlight`), and from time to time it takes a list of these, which it uses later to touch
the listed jobs (`taken`). Between the two moments a job may have been taken back and leased to another process.

`Registry.TouchesOwn` says that the lists of every process touch only its own leases. It holds in every run in which no
job is granted to a process while another one still has its id (`Registry.Lawful.touchesOwn`), and fails in a
continuation of every run in which that happens (`Registry.Lawful.overreaches`).
-/

namespace Eddyq.Lib

/-- A store that leases jobs (`grants`, with the process each is leased to), and whose jobs are touched by lists of ids.
`same s s' j` says that the job is in `s'` as it was in `s`. -/
structure Registry (σ α κ J W : Type) where
  call : σ → α → σ
  grants : σ → α → List (J × W)
  touch : σ → κ → List J → σ
  leased : σ → J → Option W → Prop
  same : σ → σ → J → Prop

/-- The ids a process has. -/
structure Roster (J : Type) where
  arriving : List J := []
  inFlight : List J := []
  taken : List (List J) := []

/-- A store and the processes on it. -/
structure Fleet (σ J W : Type) where
  store : σ
  roster : W → Roster J := fun _ => {}

/-- What happens: a call, or something in a process. -/
inductive FleetAct (α κ J W : Type)
  | call (a : α)
  /-- The process starts to work on a job of a reply. -/
  | enter (w : W) (j : J)
  /-- It is done with a job. -/
  | leave (w : W) (j : J)
  /-- It never sees the reply. -/
  | lose (w : W) (j : J)
  /-- It takes a list of its jobs. -/
  | take (w : W)
  /-- It uses a list. -/
  | touch (w : W) (k : κ) (l : List J)

section Fleet

variable {σ α κ J W : Type}

/-- The process has the id somewhere. -/
def Roster.Holds (r : Roster J) (j : J) : Prop := j ∈ r.arriving ∨ j ∈ r.inFlight ∨ ∃ l ∈ r.taken, j ∈ l

variable [DecidableEq J] [DecidableEq W] (M : Registry σ α κ J W)

/-- Change the roster of a process. -/
def Fleet.onRoster (z : Fleet σ J W) (w : W) (f : Roster J → Roster J) : Fleet σ J W :=
  { z with roster := Function.update z.roster w (f (z.roster w)) }

def Registry.act (z : Fleet σ J W) : FleetAct α κ J W → Fleet σ J W
  | .call a =>
    { store := M.call z.store a
      roster := fun w => { z.roster w with
        arriving := (z.roster w).arriving ++ ((M.grants z.store a).filter (·.2 = w)).map Prod.fst } }
  | .enter w j => z.onRoster w fun r => { r with arriving := r.arriving.erase j, inFlight := r.inFlight.insert j }
  | .leave w j => z.onRoster w fun r => { r with inFlight := r.inFlight.filter (· ≠ j) }
  | .lose w j => z.onRoster w fun r => { r with arriving := r.arriving.erase j }
  | .take w => z.onRoster w fun r => { r with taken := r.taken ++ [r.inFlight] }
  | .touch w k l =>
    { store := M.touch z.store k l
      roster := (z.onRoster w fun r => { r with taken := r.taken.erase l }).roster }

/-- A process works on what it was granted and uses the lists it took; calls meet the guard. -/
def FleetAct.Ok (ok : Fleet σ J W → α → Prop) (z : Fleet σ J W) : FleetAct α κ J W → Prop
  | .call a => ok z a
  | .enter w j => j ∈ (z.roster w).arriving
  | .touch w _ l => l ∈ (z.roster w).taken
  | _ => True

/-- The fleets that a run from a store reaches. -/
def Registry.Reached (ok : Fleet σ J W → α → Prop) (s₀ : σ) (z : Fleet σ J W) : Prop :=
  Reach (Guarded (FleetAct.Ok ok) M.act) { store := s₀ } z

omit [DecidableEq J] [DecidableEq W] in
/-- Whatever a process does with a list it took changes only jobs that are leased to it. -/
def Registry.TouchesOwn (z : Fleet σ J W) : Prop :=
  ∀ w, ∀ l ∈ (z.roster w).taken, ∀ k j, ¬ M.leased z.store j (some w) → M.same z.store (M.touch z.store k l) j

omit [DecidableEq J] [DecidableEq W] in
/-- The guard: no job is granted to a process while another one has its id. -/
def Registry.Careful (z : Fleet σ J W) (a : α) : Prop :=
  ∀ g ∈ M.grants z.store a, ∀ w, w ≠ g.2 → ¬ (z.roster w).Holds g.1

omit [DecidableEq J] [DecidableEq W] in
/-- What leases have to do with calls and lists. -/
structure Registry.Lawful : Prop where
  granted : ∀ {s a j w}, (j, w) ∈ M.grants s a → M.leased (M.call s a) j (some w)
  /-- A lease was granted or has been there. -/
  kept : ∀ {s a j o}, M.leased (M.call s a) j o →
    (∃ w, o = some w ∧ (j, w) ∈ M.grants s a) ∨ (M.leased s j o ∧ ∀ w, (j, w) ∉ M.grants s a)
  one : ∀ {s a j w w'}, (j, w) ∈ M.grants s a → (j, w') ∈ M.grants s a → w = w'
  touched : ∀ {s k l j o}, M.leased (M.touch s k l) j o → M.leased s j o
  /-- A list touches the leased jobs on it, and no other. -/
  frame : ∀ {s k l j}, (j ∈ l → ∀ o, ¬ M.leased s j o) → M.same s (M.touch s k l) j
  stirs : ∀ {s l j o}, j ∈ l → M.leased s j o → ∃ k, ¬ M.same s (M.touch s k l) j

variable {M}

/-- The ids that an act adds to a roster were granted by it. -/
theorem Registry.holds_act {z : Fleet σ J W} {ok : Fleet σ J W → α → Prop} {x : FleetAct α κ J W} (hx : x.Ok ok z)
    {w : W} {j : J} (h : ((M.act z x).roster w).Holds j) :
    (z.roster w).Holds j ∨ ∃ a, x = .call a ∧ (j, w) ∈ M.grants z.store a := by
  have hupd : ∀ w' (f : Roster J → Roster J), ((z.onRoster w' f).roster w).Holds j →
      ((f (z.roster w')).Holds j → (z.roster w').Holds j) → (z.roster w).Holds j := by
    intro w' f hf hkeep
    unfold Fleet.onRoster at hf
    dsimp only at hf
    by_cases hw : w = w'
    · subst hw
      rw [Function.update_self] at hf
      exact hkeep hf
    · rwa [Function.update_of_ne hw] at hf
  cases x with
  | call a =>
    rcases h with h | h | h
    · rcases List.mem_append.mp h with h | h
      · exact Or.inl (Or.inl h)
      · obtain ⟨⟨i, w'⟩, hg, rfl⟩ := List.mem_map.mp h
        obtain ⟨hg, hw⟩ := List.mem_filter.mp hg
        exact Or.inr ⟨a, rfl, of_decide_eq_true hw ▸ hg⟩
    · exact Or.inl (Or.inr (Or.inl h))
    · exact Or.inl (Or.inr (Or.inr h))
  | enter w' i =>
    simp only [Registry.act] at h
    refine Or.inl (hupd w' _ h fun h' => ?_)
    rcases h' with h' | h' | h'
    · exact Or.inl (List.mem_of_mem_erase h')
    · rcases List.mem_insert_iff.mp h' with rfl | h'
      · exact Or.inl hx
      · exact Or.inr (Or.inl h')
    · exact Or.inr (Or.inr h')
  | leave w' i =>
    simp only [Registry.act] at h
    refine Or.inl (hupd w' _ h fun h' => ?_)
    exact h'.imp_right (Or.imp_left fun h' => (List.mem_filter.mp h').1)
  | lose w' i =>
    simp only [Registry.act] at h
    refine Or.inl (hupd w' _ h fun h' => ?_)
    exact h'.imp_left List.mem_of_mem_erase
  | take w' =>
    simp only [Registry.act] at h
    refine Or.inl (hupd w' _ h fun h' => ?_)
    rcases h' with h' | h' | ⟨l, hl, h'⟩
    · exact Or.inl h'
    · exact Or.inr (Or.inl h')
    · rcases List.mem_append.mp hl with hl | hl
      · exact Or.inr (Or.inr ⟨l, hl, h'⟩)
      · exact Or.inr (Or.inl (List.mem_singleton.mp hl ▸ h'))
  | touch w' k l =>
    simp only [Registry.act] at h
    refine Or.inl (hupd w' _ h fun h' => ?_)
    exact h'.imp_right (Or.imp_right fun ⟨l', hl', hj⟩ => ⟨l', List.mem_of_mem_erase hl', hj⟩)

/-- The invariant: if a process has the id of a leased job, the lease is its own. -/
def Registry.OwnLeases (M : Registry σ α κ J W) (z : Fleet σ J W) : Prop :=
  ∀ w j o, (z.roster w).Holds j → M.leased z.store j o → o = some w

theorem Registry.Lawful.ownLeases_act (hM : M.Lawful) {z : Fleet σ J W} (h : M.OwnLeases z) {x : FleetAct α κ J W}
    (hx : x.Ok M.Careful z) : M.OwnLeases (M.act z x) := by
  intro w j o hj hl
  rcases Registry.holds_act hx hj with hold | ⟨a, rfl, hg⟩
  · cases x with
    | call a =>
      rcases hM.kept hl with ⟨w', rfl, hg⟩ | ⟨hl, _⟩
      · -- granted to another process, which the guard excludes
        by_contra hne
        exact hx (j, w') hg w (fun he => hne (congrArg some he.symm)) hold
      · exact h w j o hold hl
    | touch w' k l => exact h w j o hold (hM.touched hl)
    | _ => exact h w j o hold hl
  · rcases hM.kept hl with ⟨w', rfl, hg'⟩ | ⟨_, hno⟩
    · exact congrArg some (hM.one hg' hg)
    · exact absurd hg (hno w)

/-- **The rule.** Where no job is granted while another process has its id, every list touches own leases only. -/
theorem Registry.Lawful.touchesOwn (hM : M.Lawful) {s₀ : σ} {z : Fleet σ J W} (h : M.Reached M.Careful s₀ z) :
    M.TouchesOwn z := by
  have hinv : M.OwnLeases z := by
    refine Reach.inv (P := M.OwnLeases) h ?_ ?_
    · intro w j o hj
      rcases hj with hj | hj | ⟨l, hl, _⟩
      · exact absurd hj List.not_mem_nil
      · exact absurd hj List.not_mem_nil
      · exact absurd hl List.not_mem_nil
    · rintro z x _ hz ⟨hx, rfl⟩
      exact hM.ownLeases_act hz hx
  intro w l hl k j hno
  refine hM.frame fun hj o ho => hno ?_
  rw [← hinv w j o (Or.inr (Or.inr ⟨l, hl, hj⟩)) ho]
  exact ho

/-- A process can come to use any id it has, with no call in between. -/
theorem Registry.Lawful.comes_to_list {z : Fleet σ J W} {w : W} {j : J} (h : (z.roster w).Holds j) :
    ∃ z' : Fleet σ J W, Reach (Guarded (FleetAct.Ok fun _ _ => False) M.act) z z' ∧ z'.store = z.store ∧
      ∃ l ∈ (z'.roster w).taken, j ∈ l := by
  have htake : ∀ y : Fleet σ J W, Reach (Guarded (FleetAct.Ok fun _ _ => False) M.act) z y → y.store = z.store →
      j ∈ (y.roster w).inFlight → ∃ z' : Fleet σ J W, Reach (Guarded (FleetAct.Ok fun _ _ => False) M.act) z z' ∧
        z'.store = z.store ∧ ∃ l ∈ (z'.roster w).taken, j ∈ l := by
    intro y hy hs hj
    refine ⟨M.act y (.take w), hy.step (a := .take w) ⟨trivial, rfl⟩, hs, (y.roster w).inFlight, ?_, hj⟩
    simp [Registry.act, Fleet.onRoster]
  rcases h with h | h | h
  · refine htake (M.act z (.enter w j)) ((Reach.refl z).step (a := .enter w j) ⟨h, rfl⟩) rfl ?_
    simp [Registry.act, Fleet.onRoster]
  · exact htake z (Reach.refl z) rfl h
  · exact ⟨z, Reach.refl z, rfl, h⟩

/-- **The guard is exact**: once a job is granted while another process has its id, that process can come to touch it. -/
theorem Registry.Lawful.overreaches (hM : M.Lawful) {z : Fleet σ J W} {a : α} (h : ¬ M.Careful z a) :
    ∃ z' : Fleet σ J W, Reach (Guarded (FleetAct.Ok fun _ _ => False) M.act) (M.act z (.call a)) z' ∧ ¬ M.TouchesOwn z' := by
  unfold Registry.Careful at h
  push Not at h
  obtain ⟨⟨j, w⟩, hg, w', hw', hold⟩ := h
  have hold' : ((M.act z (.call a)).roster w').Holds j := hold.imp_left (List.mem_append_left _)
  obtain ⟨z', hz', hs, l, hl, hj⟩ : ∃ z' : Fleet σ J W,
      Reach (Guarded (FleetAct.Ok fun _ _ => False) M.act) (M.act z (.call a)) z' ∧ z'.store = (M.act z (.call a)).store ∧
        ∃ l ∈ (z'.roster w').taken, j ∈ l := Registry.Lawful.comes_to_list hold'
  have hl' : M.leased z'.store j (some w) := hs ▸ hM.granted hg
  obtain ⟨k, hk⟩ := hM.stirs hj hl'
  refine ⟨z', hz', fun hown => hk (hown w' l hl k j fun hother => ?_)⟩
  have hother : M.leased (M.call z.store a) j (some w') := by
    rw [hs] at hother
    exact hother
  rcases hM.kept hother with ⟨w'', he, hg'⟩ | ⟨_, hno⟩
  · cases he
    exact hw' (hM.one hg' hg)
  · exact hno w hg

end Fleet

end Eddyq.Lib
