import Eddyq.Lib.Rows

/-!
# Pages by a cursor

A list in which every row is older than the rows before it (`Newest`) is read page by page: the cursor is the age of the
oldest row of the page before (`walk`). A walk reads the whole list exactly when each page is the front of what is left
(`walk_eq_iff`). A page that is merged from several sources is that front exactly when the sources deliver the rows of
the front and the merge does not prefer an older row (`take_orderBy_eq_iff`).
-/

namespace Eddyq.Lib

variable {α : Type*}

/-- Newest first. -/
def Newest (key : α → ℤ) (l : List α) : Prop := l.Pairwise (fun a b => key b < key a)

/-- The rows older than a cursor. -/
def below (key : α → ℤ) (c : Option ℤ) (l : List α) : List α := l.filter (fun x => ∀ k ∈ c, key x < k)

/-- Page after page, until one is empty; `none` if the fuel runs out. -/
def walk (page : Option ℤ → List α) (key : α → ℤ) : Nat → Option ℤ → Option (List α)
  | 0, _ => none
  | n + 1, c =>
    match ((page c).map key).min? with
    | none => some []
    | some k => (walk page key n (some k)).map (page c ++ ·)

/-- A cursor that comes from a row, or the first one. -/
def IsCursor (key : α → ℤ) (l : List α) (c : Option ℤ) : Prop := ∀ k ∈ c, ∃ x ∈ l, key x = k

/-- What is left after `j` pages. -/
def pageStart (size : List α → Nat) : List α → Nat → List α
  | l, 0 => l
  | l, j + 1 => pageStart size (l.drop (size l)) j

section Newest

variable {key : α → ℤ}

theorem below_none (l : List α) : below key none l = l := by
  simp [below]

/-- What is older than the last row of a page is what follows. -/
theorem below_last {pre post : List α} {x : α} (h : Newest key (pre ++ x :: post)) :
    below key (some (key x)) (pre ++ x :: post) = post := by
  obtain ⟨-, hpost, hpre⟩ := List.pairwise_append.mp h
  obtain ⟨hx, -⟩ := List.pairwise_cons.mp hpost
  have hold : ∀ y ∈ post, (decide (∀ k ∈ some (key x), key y < k)) = true := fun y hy => by simpa using hx y hy
  have hnew : ∀ y ∈ pre ++ [x], ¬ (decide (∀ k ∈ some (key x), key y < k)) = true := by
    intro y hy
    rcases List.mem_append.mp hy with hy | hy
    · simpa using (hpre y hy x List.mem_cons_self).le
    · simp [List.mem_singleton.mp hy]
  have hsplit : pre ++ x :: post = (pre ++ [x]) ++ post := by simp
  rw [below, hsplit, List.filter_append, List.filter_eq_nil_iff.mpr hnew, List.filter_eq_self.mpr hold, List.nil_append]

theorem below_below {c : Option ℤ} {k : ℤ} (h : ∀ k' ∈ c, k < k') (l : List α) :
    below key (some k) (below key c l) = below key (some k) l := by
  unfold below
  rw [List.filter_filter]
  refine List.filter_congr fun x _ => ?_
  rw [← Bool.decide_and, decide_eq_decide]
  constructor
  · exact fun hx => hx.1
  · intro hx
    exact ⟨hx, fun k' hk' => (hx k rfl).trans (h k' hk')⟩

/-- The oldest row of a page is its last. -/
theorem min?_last {pre : List α} {x : α} (h : Newest key (pre ++ [x])) : ((pre ++ [x]).map key).min? = some (key x) := by
  obtain ⟨-, -, hpre⟩ := List.pairwise_append.mp h
  rw [List.min?_eq_some_iff]
  refine ⟨by simp, fun k hk => ?_⟩
  obtain ⟨y, hy, rfl⟩ := List.mem_map.mp hk
  rcases List.mem_append.mp hy with hy | hy
  · exact (hpre y hy x List.mem_cons_self).le
  · rw [List.mem_singleton.mp hy]

/-- **A page and what follows it**: the cursor of a page that is the front of what is left. -/
theorem cursor_page {D pre post : List α} {x : α} {c : Option ℤ} (hD : Newest key D)
    (h : below key c D = pre ++ x :: post) :
    ((pre ++ [x]).map key).min? = some (key x) ∧ below key (some (key x)) D = post := by
  have hnew : Newest key (pre ++ x :: post) := h ▸ List.Pairwise.filter _ hD
  have hfront : Newest key (pre ++ [x]) := by
    have hsplit : pre ++ x :: post = (pre ++ [x]) ++ post := by simp
    rw [hsplit] at hnew
    exact (List.pairwise_append.mp hnew).1
  have hx : x ∈ below key c D := h ▸ List.mem_append_right _ List.mem_cons_self
  have hlt : ∀ k ∈ c, key x < k := by simpa using (List.mem_filter.mp hx).2
  refine ⟨min?_last hfront, ?_⟩
  rw [← below_below hlt, h]
  exact below_last hnew

end Newest

section Walk

variable {page : Option ℤ → List α} {key : α → ℤ} {D : List α} {size : List α → Nat} {Ok : List α → Prop}

theorem pageStart_nil (size : List α → Nat) (j : Nat) : pageStart size [] j = [] := by
  induction j with
  | zero => rfl
  | succ j ih => rw [pageStart, List.drop_nil, ih]

theorem isCursor_of_mem {c : Option ℤ} {x : α} (h : x ∈ below key c D) : IsCursor key D (some (key x)) := by
  intro k hk
  cases hk
  exact ⟨x, (List.mem_filter.mp h).1, rfl⟩

/-- What a walk reads is on one of its pages. -/
theorem mem_walk {n : Nat} : ∀ {c : Option ℤ} {out : List α}, walk page key n c = some out → ∀ x ∈ out, ∃ c, x ∈ page c := by
  induction n with
  | zero =>
    intro c out h
    cases h
  | succ n ih =>
    intro c out h x hx
    unfold walk at h
    split at h
    · cases h
      cases hx
    · obtain ⟨rest, hrest, rfl⟩ := Option.map_eq_some_iff.mp h
      rcases List.mem_append.mp hx with hx | hx
      · exact ⟨c, hx⟩
      · exact ih hrest x hx

/-- A walk that has read all that was left has read fronts. -/
theorem walk_starts (hD : Newest key D) (hlen : ∀ c, IsCursor key D c → (page c).length = size (below key c D))
    (hpage : ∀ c, IsCursor key D c → (page c = (below key c D).take (size (below key c D)) ↔ Ok (below key c D))) {n : Nat} :
    ∀ {c : Option ℤ}, IsCursor key D c → walk page key n c = some (below key c D) →
      ∀ j, Ok (pageStart size (below key c D) j) := by
  induction n with
  | zero =>
    intro c _ h
    cases h
  | succ n ih =>
    intro c hc h
    have hlen := hlen c hc
    have hpage := hpage c hc
    unfold walk at h
    split at h
    · next hmin =>
      rw [List.min?_eq_none_iff, List.map_eq_nil_iff] at hmin
      have hnil : below key c D = [] := (Option.some.inj h).symm
      intro j
      have hok := hpage.mp (by rw [hmin, hnil, List.take_nil])
      rw [hnil] at hok ⊢
      rwa [pageStart_nil]
    · next k hmin =>
      obtain ⟨rest, hrest, heq⟩ := Option.map_eq_some_iff.mp h
      -- the page is the front of what is left, and `rest` is what follows
      rcases List.eq_nil_or_concat' (page c) with hnil | ⟨pre, x, hx⟩
      · rw [hnil] at hmin
        cases hmin
      · have hsplit : below key c D = pre ++ x :: rest := by rw [← heq, hx, List.append_assoc]; rfl
        obtain ⟨hlast, hbelow⟩ := cursor_page hD hsplit
        rw [hx, hlast, Option.some.injEq] at hmin
        subst hmin
        have hok := hpage.mp (by rw [← hlen, ← heq, List.take_left])
        have hdrop : (below key c D).drop (size (below key c D)) = rest := by rw [← hlen, ← heq, List.drop_left]
        rw [← hbelow] at hrest
        intro j
        cases j with
        | zero => exact hok
        | succ j =>
          rw [pageStart, hdrop, ← hbelow]
          exact ih (isCursor_of_mem (hsplit ▸ List.mem_append_right _ List.mem_cons_self)) hrest j

/-- Fronts make a walk that reads all that was left. -/
theorem walk_of_starts (hD : Newest key D) (hsize : ∀ l, l ≠ [] → 0 < size l)
    (hpage : ∀ c, IsCursor key D c → (page c = (below key c D).take (size (below key c D)) ↔ Ok (below key c D))) {m : Nat} :
    ∀ {c : Option ℤ}, IsCursor key D c → (below key c D).length ≤ m → (∀ j, Ok (pageStart size (below key c D) j)) →
      ∃ n, walk page key n c = some (below key c D) := by
  induction m with
  | zero =>
    intro c hc hm h
    have hnil := List.length_eq_zero_iff.mp (Nat.le_zero.mp hm)
    have hempty : page c = [] := by rw [(hpage c hc).mpr (h 0), hnil, List.take_nil]
    refine ⟨1, ?_⟩
    rw [walk, hempty, hnil]
    rfl
  | succ m ih =>
    intro c hc hm h
    have hfront := (hpage c hc).mpr (h 0)
    rcases List.eq_nil_or_concat' (page c) with hnil | ⟨pre, x, hlast⟩
    · have hleft : below key c D = [] := by
        by_contra hne
        have hpos := hsize _ hne
        rw [hnil, eq_comm, List.take_eq_nil_iff] at hfront
        rcases hfront with h0 | h0
        · omega
        · exact hne h0
      refine ⟨1, ?_⟩
      rw [walk, hnil, hleft]
      rfl
    · have hsplit : below key c D = pre ++ x :: (below key c D).drop (size (below key c D)) := by
        conv_lhs => rw [← List.take_append_drop (size (below key c D)) (below key c D), ← hfront, hlast]
        rw [List.append_assoc]
        rfl
      obtain ⟨hmin, hbelow⟩ := cursor_page hD hsplit
      have hshort : (below key (some (key x)) D).length ≤ m := by
        have hl := congrArg List.length hsplit
        rw [List.length_append, List.length_cons, ← hbelow] at hl
        omega
      have hx : IsCursor key D (some (key x)) :=
        isCursor_of_mem (hsplit ▸ List.mem_append_right _ List.mem_cons_self)
      obtain ⟨n, hn⟩ := ih hx hshort fun j => hbelow ▸ h (j + 1)
      refine ⟨n + 1, ?_⟩
      rw [walk, hlast, hmin]
      dsimp only
      rw [hn, Option.map_some, hbelow, List.append_assoc]
      exact congrArg some hsplit.symm

/-- **A walk reads the whole list** exactly when every page is a front. -/
theorem walk_eq_iff (hD : Newest key D) (hsize : ∀ l, l ≠ [] → 0 < size l)
    (hlen : ∀ c, IsCursor key D c → (page c).length = size (below key c D))
    (hpage : ∀ c, IsCursor key D c → (page c = (below key c D).take (size (below key c D)) ↔ Ok (below key c D))) :
    (∃ n, walk page key n none = some D) ↔ ∀ j, Ok (pageStart size D j) := by
  have hall : below key none D = D := below_none D
  have hfirst : IsCursor key D none := fun k hk => by cases hk
  constructor
  · rintro ⟨n, hn⟩
    have := walk_starts hD hlen hpage (n := n) hfirst (by rw [hall, hn])
    rwa [hall] at this
  · intro h
    have := walk_of_starts hD hsize hpage (m := D.length) hfirst (by rw [hall]) (by rwa [hall])
    rwa [hall] at this

end Walk

section Merge

variable {key : α → ℤ}

/-- The first `n` rows by a rank are those with less than `n` rows above them. -/
theorem mem_take_iff_countP {rank : α → Nat} {l : List α} (h : l.Pairwise (fun a b => rank b < rank a)) {n : Nat} {x : α}
    (hx : x ∈ l) : x ∈ l.take n ↔ l.countP (fun y => rank x < rank y) < n := by
  induction l generalizing n with
  | nil => cases hx
  | cons a l ih =>
    obtain ⟨ha, hl⟩ := List.pairwise_cons.mp h
    cases n with
    | zero => simp
    | succ n =>
      rcases List.mem_cons.mp hx with rfl | hx
      · have hnone : l.countP (fun y => rank x < rank y) = 0 := by
          rw [List.countP_eq_zero]
          intro y hy
          simpa using (ha y hy).le
        simp [hnone]
      · have hlt := ha x hx
        have hne : x ≠ a := by
          rintro rfl
          exact lt_irrefl _ hlt
        rw [List.take_succ_cons, List.mem_cons, ih hl hx, List.countP_cons_of_pos (by simpa using hlt)]
        simp [hne]

/-- Of two orders that a list is in, the one tells what the other says. -/
theorem rel_of_newest {R : α → α → Prop} {l : List α} (hnew : Newest key l) (hR : l.Pairwise R) {x y : α} (hx : x ∈ l)
    (hy : y ∈ l) (hlt : key y < key x) : R x y := by
  induction l with
  | nil => cases hx
  | cons a l ih =>
    obtain ⟨ha, hl⟩ := List.pairwise_cons.mp hnew
    obtain ⟨hRa, hRl⟩ := List.pairwise_cons.mp hR
    rcases List.mem_cons.mp hx with rfl | hx' <;> rcases List.mem_cons.mp hy with rfl | hy'
    · exact absurd hlt (lt_irrefl _)
    · exact hRa y hy'
    · exact absurd hlt (ha x hx').not_gt
    · exact ih hl hRl hx' hy'

theorem newest_nodup {l : List α} (h : Newest key l) : l.Nodup := by
  refine List.Pairwise.imp ?_ h
  rintro a _ hlt rfl
  exact lt_irrefl _ hlt

variable [DecidableEq α] {le : α → α → Bool} {D F : List α} {got : α → Bool}

/-- Rows that are in order and before all others of a sorted list are its front. -/
theorem take_eq_of_before {S A : List α} (hsorted : S.Pairwise (fun a b => le a b = true)) (hS : S.Nodup)
    (hanti : ∀ a ∈ S, ∀ b ∈ S, le a b = true → le b a = true → a = b) (hA : A.Nodup) (hsub : A ⊆ S)
    (hin : A.Pairwise (fun a b => le a b = true)) (hcross : ∀ x ∈ A, ∀ y ∈ S, y ∉ A → le x y = true) :
    S.take A.length = A := by
  -- these rows and then the others in their order are the sorted list
  have hmem : ∀ x, x ∈ A ++ S.filter (fun x => x ∉ A) ↔ x ∈ S := by
    intro x
    rw [List.mem_append, List.mem_filter, decide_eq_true_iff]
    constructor
    · rintro (hx | ⟨hx, -⟩)
      · exact hsub hx
      · exact hx
    · intro hx
      by_cases hxA : x ∈ A
      · exact .inl hxA
      · exact .inr ⟨hx, hxA⟩
  have hnodup : (A ++ S.filter (fun x => x ∉ A)).Nodup := by
    refine List.nodup_append.mpr ⟨hA, hS.filter _, ?_⟩
    rintro x hx _ hx' rfl
    exact absurd hx (by simpa using (List.mem_filter.mp hx').2)
  have horder : (A ++ S.filter (fun x => x ∉ A)).Pairwise (fun a b => le a b = true) := by
    refine List.pairwise_append.mpr ⟨hin, hsorted.sublist List.filter_sublist, fun x hx y hy => ?_⟩
    obtain ⟨hyS, hyA⟩ := List.mem_filter.mp hy
    exact hcross x hx y hyS (by simpa using hyA)
  have hperm : (A ++ S.filter (fun x => x ∉ A)).Perm S := (List.perm_ext_iff_of_nodup hnodup hS).mpr hmem
  have heq : A ++ S.filter (fun x => x ∉ A) = S :=
    List.Perm.eq_of_pairwise (fun a b ha hb => hanti a ((hmem a).mp ha) b hb) horder hsorted hperm
  calc S.take A.length = (A ++ S.filter (fun x => x ∉ A)).take A.length := by rw [heq]
    _ = A := List.take_left' rfl

/-- **The first rows of a merge** of `F`, the rows got of `D`, are the front of `D` exactly when all rows of the front
have been got and no older row that has been got is put before one of them. -/
theorem take_orderBy_eq_iff (htotal : ∀ a b, le a b = true ∨ le b a = true)
    (htrans : ∀ a b c, le a b = true → le b c = true → le a c = true)
    (hanti : ∀ a ∈ F, ∀ b ∈ F, le a b = true → le b a = true → a = b) (hD : Newest key D) (hF : F.Perm (D.filter got))
    (n : Nat) : (orderBy le F).take n = D.take (min n (D.countP got)) ↔
      ∀ x ∈ D.take (min n (D.countP got)), got x = true ∧ ∀ y ∈ D, got y = true → key y < key x → le y x = false := by
  set m := min n (D.countP got) with hm
  have hmem : ∀ x, x ∈ orderBy le F ↔ x ∈ D ∧ got x = true := by
    intro x
    rw [mem_orderBy, hF.mem_iff, List.mem_filter]
  have hlen : (orderBy le F).length = D.countP got := by
    rw [(perm_orderBy le F).length_eq, hF.length_eq, List.countP_eq_length_filter]
  have hsorted : (orderBy le F).Pairwise (fun a b => le a b = true) := pairwise_orderBy htotal htrans F
  have hcut : (orderBy le F).take n = (orderBy le F).take m := by
    rw [hm, ← hlen, List.take_eq_take_min]
  have hanti : ∀ a ∈ orderBy le F, ∀ b ∈ orderBy le F, le a b = true → le b a = true → a = b :=
    fun a ha b hb => hanti a (mem_orderBy.mp ha) b (mem_orderBy.mp hb)
  have hfront : Newest key (D.take m) := List.Pairwise.sublist (List.take_sublist _ _) hD
  rw [hcut]
  constructor
  · intro h x hx
    have hxS : x ∈ orderBy le F := List.mem_of_mem_take (h ▸ hx)
    refine ⟨((hmem x).mp hxS).2, fun y hy hgot hlt => ?_⟩
    have hyS : y ∈ orderBy le F := (hmem y).mpr ⟨hy, hgot⟩
    have hle : le x y = true := by
      rw [← List.take_append_drop m (orderBy le F), h] at hsorted hyS
      obtain ⟨hin, -, hcross⟩ := List.pairwise_append.mp hsorted
      rcases List.mem_append.mp hyS with hyS | hyS
      · exact rel_of_newest hfront hin hx hyS hlt
      · exact hcross x hx y hyS
    by_contra hyx
    rw [Bool.not_eq_false] at hyx
    rw [hanti x hxS y hyS hle hyx] at hlt
    exact lt_irrefl _ hlt
  · intro h
    have hbefore : ∀ x ∈ D.take m, ∀ y ∈ D, got y = true → key y < key x → le x y = true := by
      intro x hx y hy hgot hlt
      rcases htotal x y with hle | hle
      · exact hle
      · rw [(h x hx).2 y hy hgot hlt] at hle
        cases hle
    have hnodup : (orderBy le F).Nodup :=
      ((perm_orderBy le F).trans hF).nodup_iff.mpr ((newest_nodup hD).filter _)
    have hsub : D.take m ⊆ orderBy le F := fun x hx => (hmem x).mpr ⟨List.mem_of_mem_take hx, (h x hx).1⟩
    have hin : (D.take m).Pairwise (fun a b => le a b = true) :=
      hfront.imp_of_mem fun hx hy hlt => hbefore _ hx _ (List.mem_of_mem_take hy) (h _ hy).1 hlt
    have hcross : ∀ x ∈ D.take m, ∀ y ∈ orderBy le F, y ∉ D.take m → le x y = true := by
      intro x hx y hyS hyfront
      obtain ⟨hyD, hgot⟩ := (hmem y).mp hyS
      have hydrop : y ∈ D.drop m := by
        rw [← List.take_append_drop m D] at hyD
        exact (List.mem_append.mp hyD).resolve_left hyfront
      have hsplit : Newest key (D.take m ++ D.drop m) := (List.take_append_drop m D).symm ▸ hD
      exact hbefore x hx y hyD hgot ((List.pairwise_append.mp hsplit).2.2 x hx y hydrop)
    have hm' : (D.take m).length = m := by
      have hle : D.countP got ≤ D.length := List.countP_le_length
      rw [List.length_take]
      omega
    have htake := take_eq_of_before hsorted hnodup hanti (newest_nodup hfront) hsub hin hcross
    rwa [hm'] at htake

end Merge

end Eddyq.Lib
