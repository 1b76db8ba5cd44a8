import Eddyq.Runtime.Loops
import Mathlib.Data.List.Nodup

/-!
# What is in `in_flight`

`in_flight` is a set of ids, with an insert for every claimed row and a remove for every finished execution. As long as
no id is twice in the hands of the process (`Loops.Once.nodup`), the remove of one execution is not that of another, and
every job between the channel and the end of its handler is in the set (`Loops.Once.flight`).
-/

namespace Eddyq.Runtime

variable {σ : Type} {S : Service σ} {cfg : Config} {p p' : Loops σ}

/-- The row that is in `in_flight` and not in the channel. -/
def Fetch.entered : Fetch → List JobId
  | .sending _ id _ => [id]
  | _ => []

/-- Every id is in one place, and what a worker can get or has is in `in_flight`. -/
structure Loops.Once (p : Loops σ) : Prop where
  nodup : (p.fetch.rows ++ p.channel ++ p.inHand).Nodup
  flight : ∀ id ∈ p.fetch.entered ++ p.channel ++ p.inHand, id ∈ p.inFlight

theorem Loops.Once.start (cfg : Config) (s : σ) : (Loops.start cfg s).Once := by
  have hnone : (Loops.start cfg s).inHand = [] := by
    simp [Loops.start, Loops.inHand, List.filterMap_eq_nil_iff, Work.inHand]
  constructor
  · rw [hnone]
    exact List.nodup_nil
  · rw [hnone]
    exact fun _ hid => absurd hid List.not_mem_nil

/-- Nothing comes into the hands of the process, and nothing leaves `in_flight`. -/
theorem Loops.Once.shrink (h : p.Once)
    (sub : (p'.fetch.rows ++ p'.channel ++ p'.inHand).Subperm (p.fetch.rows ++ p.channel ++ p.inHand))
    (known : ∀ id ∈ p'.fetch.entered ++ p'.channel ++ p'.inHand, id ∈ p.fetch.entered ++ p.channel ++ p.inHand)
    (grow : ∀ id ∈ p.inFlight, id ∈ p'.inFlight) : p'.Once := by
  refine ⟨?_, fun id hid => grow id (h.flight id (known id hid))⟩
  obtain ⟨l, hperm, hsub⟩ := sub
  exact hperm.nodup_iff.mp (h.nodup.sublist hsub)

theorem filterMap_work (f : Work → Option JobId) (ws ws' : List Work) (w : Work) :
    (ws ++ w :: ws').filterMap f = ws.filterMap f ++ (f w).toList ++ ws'.filterMap f := by
  rw [List.filterMap_append, List.filterMap_cons]
  cases f w <;> simp

/-- A worker lays down or keeps what it has in hand. -/
theorem Loops.Once.work (h : p.Once) {s : σ} {ws ws' : List Work} {w w' : Work} {i : Nat}
    (at' : p.workers = ws ++ w :: ws') (keep : w'.inHand = w.inHand ∨ w'.inHand = none) :
    Loops.Once { p with store := s, workers := ws ++ w' :: ws', idle := i } := by
  have hsub : (Loops.inHand { p with store := s, workers := ws ++ w' :: ws', idle := i }).Sublist p.inHand := by
    unfold Loops.inHand
    rw [at', filterMap_work, filterMap_work]
    rcases keep with hk | hk
    · rw [hk]
    · rw [hk]
      exact List.Sublist.append (List.Sublist.append (List.Sublist.refl _) (List.nil_sublist _)) (List.Sublist.refl _)
  refine h.shrink (List.Sublist.subperm (List.Sublist.append (List.Sublist.refl _) hsub)) (fun id hid => ?_)
    (fun id hid => hid)
  rcases List.mem_append.mp hid with hid | hid
  · exact List.mem_append_left _ hid
  · exact List.mem_append_right _ (hsub.subset hid)

/-- The fetcher moves with the rows it has. -/
theorem Loops.Once.fetcher (h : p.Once) {s : σ} {f : Fetch} {i : Nat} {cancelled aborted : Bool}
    (rows : f.rows = p.fetch.rows ∨ f.rows = []) (entered : f.entered = []) :
    Loops.Once { p with store := s, fetch := f, idle := i, cancelled := cancelled, aborted := aborted } := by
  refine h.shrink (List.Sublist.subperm ?_) (fun id hid => ?_) (fun id hid => hid)
  · refine List.Sublist.append (List.Sublist.append ?_ (List.Sublist.refl _)) (List.Sublist.refl _)
    show f.rows.Sublist p.fetch.rows
    rcases rows with hr | hr
    · rw [hr]
    · rw [hr]
      exact List.nil_sublist _
  · have hid : id ∈ f.entered ++ p.channel ++ p.inHand := hid
    rw [entered, List.nil_append] at hid
    rw [List.append_assoc]
    exact List.mem_append_right _ hid

/-- A claim brings rows that are nowhere else. -/
theorem Loops.Once.claimed (h : p.Once) {n : Nat} {rows : List JobId} {s : σ} {full : Bool} (pc : p.fetch = .claiming n)
    (hrows : rows.Nodup) (hnew : ∀ id ∈ rows, id ∉ p.channel ++ p.inHand) :
    Loops.Once { p with store := s, fetch := .looping full rows } := by
  have hn := h.nodup
  have hf := h.flight
  simp only [pc, Fetch.rows, Fetch.entered, List.nil_append] at hn hf
  refine ⟨?_, hf⟩
  show (rows ++ p.channel ++ p.inHand).Nodup
  rw [List.append_assoc, List.nodup_append']
  exact ⟨hrows, hn, fun id hid hc => hnew id hid hc⟩

theorem Loops.Once.enter (h : p.Once) {full : Bool} {id : JobId} {rows : List JobId} (pc : p.fetch = .forgot full id rows) :
    Loops.Once { p with fetch := .sending full id rows, inFlight := p.inFlight.insert id } := by
  have hn := h.nodup
  have hf := h.flight
  simp only [pc, Fetch.rows, Fetch.entered, List.nil_append] at hn hf
  refine ⟨hn, fun i hi => ?_⟩
  have hi : i ∈ [id] ++ p.channel ++ p.inHand := hi
  rw [List.append_assoc, List.singleton_append, List.mem_cons] at hi
  show i ∈ p.inFlight.insert id
  rw [List.mem_insert_iff]
  exact hi.imp_right (hf i)

theorem Loops.Once.send (h : p.Once) {full : Bool} {id : JobId} {rows : List JobId}
    (pc : p.fetch = .sending full id rows) :
    Loops.Once { p with fetch := .looping full rows, channel := p.channel ++ [id] } := by
  refine h.shrink (List.Perm.subperm ?_) (fun i hi => ?_) (fun i hi => hi)
  · rw [pc]
    show (rows ++ (p.channel ++ [id]) ++ p.inHand).Perm (id :: rows ++ p.channel ++ p.inHand)
    refine List.Perm.append_right _ ?_
    rw [← List.append_assoc]
    exact List.perm_append_singleton id (rows ++ p.channel)
  · have hi : i ∈ [] ++ (p.channel ++ [id]) ++ p.inHand := hi
    rw [pc]
    show i ∈ [id] ++ p.channel ++ p.inHand
    simp only [List.nil_append, List.mem_append] at hi ⊢
    tauto

theorem Loops.Once.receive (h : p.Once) {ws ws' : List Work} {id : JobId} {rest : List JobId}
    (at' : p.workers = ws ++ .waiting :: ws') (head : p.channel = id :: rest) :
    Loops.Once { p with workers := ws ++ .received id :: ws', channel := rest } := by
  have hperm : (rest ++ Loops.inHand { p with workers := ws ++ .received id :: ws', channel := rest }).Perm
      (p.channel ++ p.inHand) := by
    unfold Loops.inHand
    rw [at', head, filterMap_work, filterMap_work]
    simp only [Work.inHand, Option.toList_some, Option.toList_none, List.append_nil, List.append_assoc,
      List.cons_append]
    rw [← List.append_assoc, ← List.append_assoc]
    exact List.perm_middle
  refine h.shrink (List.Perm.subperm ?_) (fun i hi => ?_) (fun i hi => hi)
  · rw [List.append_assoc, List.append_assoc]
    exact List.Perm.append_left _ hperm
  · rw [List.append_assoc] at hi ⊢
    rcases List.mem_append.mp hi with hi | hi
    · exact List.mem_append_left _ hi
    · exact List.mem_append_right _ (hperm.mem_iff.mp hi)

/-- The remove of an execution is its own: the id is nowhere else. -/
theorem Loops.Once.remove (h : p.Once) {ws ws' : List Work} {id : JobId} (at' : p.workers = ws ++ .returned id :: ws') :
    Loops.Once { p with workers := ws ++ .reporting id :: ws', inFlight := p.inFlight.filter (· ≠ id) } := by
  have hperm : p.inHand.Perm
      (id :: Loops.inHand { p with workers := ws ++ .reporting id :: ws', inFlight := p.inFlight.filter (· ≠ id) }) := by
    unfold Loops.inHand
    rw [at', filterMap_work, filterMap_work]
    simp only [Work.inHand, Option.toList_some, Option.toList_none, List.append_nil, List.append_assoc,
      List.singleton_append]
    exact List.perm_middle
  generalize hl : Loops.inHand { p with workers := ws ++ .reporting id :: ws', inFlight := p.inFlight.filter (· ≠ id) } = l
    at hperm
  have hn : (id :: (p.fetch.rows ++ p.channel ++ l)).Nodup := by
    refine ((List.Perm.append_left _ hperm).trans List.perm_middle).nodup_iff.mp ?_
    exact h.nodup
  obtain ⟨hout, hn⟩ := List.nodup_cons.mp hn
  refine ⟨?_, fun i hi => ?_⟩
  · rw [hl]
    exact hn
  · rw [hl] at hi
    have hi : i ∈ p.fetch.entered ++ p.channel ++ l := hi
    have hne : i ≠ id := by
      rintro rfl
      refine hout ?_
      rcases List.mem_append.mp hi with hi | hi
      · refine List.mem_append_left _ ?_
        rcases List.mem_append.mp hi with hi | hi
        · refine List.mem_append_left _ ?_
          cases hf : p.fetch with
          | sending full j rows =>
            rw [hf] at hi
            rw [List.mem_singleton.mp hi]
            exact List.mem_cons_self
          | _ => rw [hf] at hi; exact absurd hi List.not_mem_nil
        · exact List.mem_append_right _ hi
      · exact List.mem_append_right _ hi
    have hold : i ∈ p.fetch.entered ++ p.channel ++ p.inHand := by
      rcases List.mem_append.mp hi with hi | hi
      · exact List.mem_append_left _ hi
      · exact List.mem_append_right _ (hperm.mem_iff.mpr (List.mem_cons_of_mem _ hi))
    show i ∈ p.inFlight.filter (· ≠ id)
    rw [List.mem_filter]
    exact ⟨h.flight i hold, decide_eq_true hne⟩

/-- **One instruction of a careful run.** -/
theorem Loops.Once.turn (hs : S.inv p.store) (h : p.Once) (ht : Turn S cfg True p p') : p'.Once := by
  cases ht with
  | acquire pc permit => exact h.fetcher (Or.inr rfl) rfl
  | release pc => exact h.fetcher (Or.inr rfl) rfl
  | read pc => exact h.fetcher (Or.inr rfl) rfl
  | claimed pc done ok => exact h.claimed pc (S.claim_rows hs done).2 (ok trivial)
  | failed pc done => exact h.fetcher (Or.inr rfl) rfl
  | tryAcquire pc permit => exact h.fetcher (Or.inl (by rw [pc]; rfl)) rfl
  | panic pc spent => exact h.fetcher (Or.inr rfl) rfl
  | forget pc => exact h.fetcher (Or.inl (by rw [pc]; rfl)) rfl
  | enter pc => exact h.enter pc
  | send pc isOpen room => exact h.send pc
  | sendFails pc gone => exact h.fetcher (Or.inr rfl) rfl
  | @rest full pc => exact h.fetcher (Or.inr (by cases full <;> rfl)) (by cases full <;> rfl)
  | wake pc => exact h.fetcher (Or.inr rfl) rfl
  | stopFetch pc off => exact h.fetcher (Or.inr rfl) rfl
  | receive at' head => exact h.receive at' head
  | call at' => exact h.work at' (Or.inl rfl)
  | unknown at' => exact h.work at' (Or.inl rfl)
  | ended at' => exact h.work at' (Or.inl rfl)
  | remove at' => exact h.remove at'
  | report at' done => exact h.work at' (Or.inl rfl)
  | again at' => exact h.work at' (Or.inl rfl)
  | stopWork at' off => exact h.work at' (Or.inl rfl)
  | cancel => exact ⟨h.nodup, h.flight⟩
  | abort off => exact ⟨h.nodup, h.flight⟩
  | dropFetch off waits => exact h.fetcher (Or.inr rfl) rfl
  | dropWork off at' waits => exact h.work at' (Or.inr rfl)
  | other done => exact ⟨h.nodup, h.flight⟩

theorem Loops.Reached.once (h : p.Reached S cfg True) : p.Once :=
  h.rule (.start cfg) (fun _ _ hs hi ht => hi.turn hs ht)

/-- A handler that has not ended has a job in hand. -/
theorem executing_inHand {id : JobId} (h : id ∈ p.executing) : id ∈ p.inHand := by
  obtain ⟨w, hw, he⟩ := List.mem_filterMap.mp h
  refine List.mem_filterMap.mpr ⟨w, hw, ?_⟩
  cases w <;> simp_all [Work.executing, Work.inHand]

end Eddyq.Runtime
