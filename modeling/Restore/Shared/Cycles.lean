import Mathlib.Algebra.GroupWithZero.Nat
import Mathlib.Data.List.Induction
import Mathlib.Data.List.Nodup
import Mathlib.Data.List.Perm.Subperm
import Mathlib.Data.Nat.Basic
import Mathlib.Data.Nat.Notation
import Mathlib.Order.Basic

/-! # Timers on cycle windows

Elapsed time falls into windows of one cycle each. A timer counts, and fires when the elapsed
time is over a limit that depends on its count. It fires once in each window that is looked
at if the limits lie between the windows. -/

namespace Restore.Cycles

variable {α : Type*} {c : ℕ}

/-! ## Windows -/

/-- `e` is in the window `(k * c, (k + 1) * c]`. -/
def InWindow (c k e : ℕ) : Prop := k * c < e ∧ e ≤ (k + 1) * c

instance (k e : ℕ) : Decidable (InWindow c k e) := inferInstanceAs (Decidable (_ ∧ _))

def SameWindow (c a b : ℕ) : Prop := ∃ k, InWindow c k a ∧ InWindow c k b

def windowOf (c e : ℕ) : ℕ := (e - 1) / c

theorem inWindow_iff {k e : ℕ} (hc : 0 < c) : InWindow c k e ↔ 0 < e ∧ windowOf c e = k := by
  rw [InWindow, windowOf, Nat.div_eq_iff hc, Nat.succ_mul]
  omega

theorem inWindow_windowOf {e : ℕ} (hc : 0 < c) (he : 0 < e) : InWindow c (windowOf c e) e :=
  (inWindow_iff hc).mpr ⟨he, rfl⟩

theorem sameWindow_iff {a b : ℕ} (hc : 0 < c) :
    SameWindow c a b ↔ 0 < a ∧ 0 < b ∧ windowOf c a = windowOf c b := by
  simp only [SameWindow, inWindow_iff hc]
  constructor
  · rintro ⟨k, ⟨ha, rfl⟩, hb, hwindow⟩
    exact ⟨ha, hb, hwindow.symm⟩
  · rintro ⟨ha, hb, hwindow⟩
    exact ⟨_, ⟨ha, rfl⟩, hb, hwindow.symm⟩

theorem SameWindow.trans {a b e : ℕ} (hc : 0 < c) (h : SameWindow c a b)
    (h' : SameWindow c b e) : SameWindow c a e := by
  rw [sameWindow_iff hc] at h h' ⊢
  exact ⟨h.1, h'.2.1, h.2.2.trans h'.2.2⟩

theorem InWindow.cycle_pos {k e : ℕ} (h : InWindow c k e) : 0 < c := by
  rw [InWindow, Nat.succ_mul] at h
  omega

instance (a b : ℕ) : Decidable (SameWindow c a b) :=
  decidable_of_iff (0 < c ∧ 0 < a ∧ 0 < b ∧ windowOf c a = windowOf c b)
    ⟨fun h => (sameWindow_iff h.1).mpr h.2,
      fun h => by
        obtain ⟨k, ha, hb⟩ := h
        exact ⟨ha.cycle_pos, (sameWindow_iff ha.cycle_pos).mp ⟨k, ha, hb⟩⟩⟩

theorem windowOf_mono {a b : ℕ} (h : a ≤ b) : windowOf c a ≤ windowOf c b :=
  Nat.div_le_div_right (Nat.sub_le_sub_right h 1)

/-! ## Elements of a list and what comes before them -/

def Each (P : List α → α → Prop) (xs : List α) : Prop :=
  ∀ before x after, xs = before ++ x :: after → P before x

variable {P Q : List α → α → Prop}

theorem each_nil : Each P [] := fun _ _ _ h => absurd h.symm (by simp)

theorem each_concat {xs : List α} {x : α} : Each P (xs ++ [x]) ↔ Each P xs ∧ P xs x := by
  constructor
  · intro h
    refine ⟨fun before y after hxs => ?_, h xs x [] rfl⟩
    exact h before y (after ++ [x]) (by rw [hxs, List.append_assoc, List.cons_append])
  · rintro ⟨hxs, hx⟩ before y after h
    rcases List.eq_nil_or_concat after with rfl | ⟨after, z, rfl⟩
    · obtain ⟨rfl, hy⟩ := List.append_inj' h rfl
      rwa [← List.singleton_inj.mp hy]
    · rw [List.concat_eq_append, ← List.cons_append, ← List.append_assoc] at h
      exact hxs before y after (List.append_inj' h rfl).1

theorem each_congr {xs : List α}
    (h : ∀ before x after, xs = before ++ x :: after → (P before x ↔ Q before x)) :
    Each P xs ↔ Each Q xs :=
  forall_congr' fun before => forall_congr' fun x => forall_congr' fun after =>
    forall_congr' fun hxs => h before x after hxs

/-! ## First looks -/

/-- The elapsed times that no earlier one shares its window with. -/
def firsts (c : ℕ) (es : List ℕ) : List ℕ :=
  es.foldl (fun fs e => if 0 < e ∧ ∀ f ∈ fs, ¬SameWindow c f e then fs ++ [e] else fs) []

theorem firsts_step (es : List ℕ) (e : ℕ) :
    firsts c (es ++ [e]) =
      if 0 < e ∧ ∀ f ∈ firsts c es, ¬SameWindow c f e then firsts c es ++ [e]
      else firsts c es :=
  List.foldl_concat ..

theorem mem_of_mem_firsts {es : List ℕ} {f : ℕ} (h : f ∈ firsts c es) : f ∈ es ∧ 0 < f := by
  induction es using List.reverseRecOn with
  | nil => exact absurd h List.not_mem_nil
  | append_singleton es e ih =>
      rw [firsts_step] at h
      split at h
      next he =>
        rcases List.mem_append.mp h with h | h
        · exact ⟨List.mem_append_left _ (ih h).1, (ih h).2⟩
        · obtain rfl := List.mem_singleton.mp h
          exact ⟨List.mem_append_right _ h, he.1⟩
      next => exact ⟨List.mem_append_left _ (ih h).1, (ih h).2⟩

/-- Every window that is looked at has a first look. -/
theorem exists_first (hc : 0 < c) {es : List ℕ} {e : ℕ} (he : e ∈ es) (hpos : 0 < e) :
    ∃ f ∈ firsts c es, SameWindow c f e := by
  induction es using List.reverseRecOn with
  | nil => exact absurd he List.not_mem_nil
  | append_singleton es x ih =>
      rw [firsts_step]
      rcases List.mem_append.mp he with he | he
      · obtain ⟨f, hf, hsame⟩ := ih he
        refine ⟨f, ?_, hsame⟩
        split
        · exact List.mem_append_left _ hf
        · exact hf
      · obtain rfl := List.mem_singleton.mp he
        split
        next => exact ⟨e, List.mem_append_right _ he, (sameWindow_iff hc).mpr ⟨hpos, hpos, rfl⟩⟩
        next hnew => simpa only [hpos, true_and, not_forall, Classical.not_not, exists_prop]
            using hnew

theorem firsts_concat (hc : 0 < c) (es : List ℕ) (e : ℕ) :
    firsts c (es ++ [e]) =
      if 0 < e ∧ ∀ s ∈ es, ¬SameWindow c s e then firsts c es ++ [e] else firsts c es := by
  rw [firsts_step]
  refine if_congr (and_congr_right fun hpos => ⟨fun h s hs hsame => ?_, fun h f hf => ?_⟩) rfl rfl
  · obtain ⟨f, hf, hfirst⟩ := exists_first hc hs ((sameWindow_iff hc).mp hsame).1
    exact h f hf (hfirst.trans hc hsame)
  · exact h f (mem_of_mem_firsts hf).1

/-! ## Timers -/

structure Timer where
  /-- What the elapsed time is compared with. -/
  limit : ℕ → ℕ
  /-- What the count goes up by when the timer fires. -/
  inc : ℕ → ℕ

namespace Timer

variable (t : Timer)

def count (es : List ℕ) : ℕ :=
  es.foldl (fun n e => if t.limit n < e then n + t.inc e else n) 0

theorem count_concat (es : List ℕ) (e : ℕ) :
    t.count (es ++ [e]) =
      if t.limit (t.count es) < e then t.count es + t.inc e else t.count es :=
  List.foldl_concat ..

/-- The timer fires at the first look at a window, and at no other. -/
def OncePerWindow (c : ℕ) (es : List ℕ) : Prop :=
  Each (fun before e => 0 < e →
    (t.limit (t.count before) < e ↔ ∀ s ∈ before, ¬SameWindow c s e)) es

/-- The count of a timer that has fired at every first look. -/
def total (c : ℕ) (es : List ℕ) : ℕ := ((firsts c es).map t.inc).sum

/-- The first looks are over the limit, and the others are not. -/
def Separates (c : ℕ) (es : List ℕ) : Prop :=
  Each (fun before e => 0 < e →
    (t.limit (t.total c before) < e ↔ ∀ s ∈ before, ¬SameWindow c s e)) es

variable {t}

theorem OncePerWindow.count_eq (hc : 0 < c) {es : List ℕ} (h : t.OncePerWindow c es) :
    t.count es = t.total c es := by
  induction es using List.reverseRecOn with
  | nil => rfl
  | append_singleton es e ih =>
      obtain ⟨hes, he⟩ := each_concat.mp h
      have hfires : t.limit (t.count es) < e ↔ 0 < e ∧ ∀ s ∈ es, ¬SameWindow c s e :=
        ⟨fun hlt => ⟨Nat.zero_lt_of_lt hlt, (he (Nat.zero_lt_of_lt hlt)).mp hlt⟩,
          fun hnew => (he hnew.1).mpr hnew.2⟩
      rw [count_concat, total, firsts_concat hc, if_congr hfires rfl rfl, ih hes]
      split
      · rw [List.map_append, List.sum_append, List.map_singleton, List.sum_singleton, total]
      · rfl

/-- The limits depend on the elapsed times alone. -/
theorem oncePerWindow_iff (hc : 0 < c) (es : List ℕ) :
    t.OncePerWindow c es ↔ t.Separates c es := by
  induction es using List.reverseRecOn with
  | nil => exact iff_of_true each_nil each_nil
  | append_singleton es e ih =>
      rw [OncePerWindow, Separates, each_concat, each_concat, ← Separates, ← ih]
      refine and_congr_right fun hes => ?_
      rw [OncePerWindow.count_eq hc hes]

end Timer

/-! ## Timers that count the windows -/

/-- The windows that have been looked at. -/
def visited (c : ℕ) (es : List ℕ) : List ℕ := (firsts c es).map (windowOf c)

theorem mem_visited (hc : 0 < c) {es : List ℕ} {k : ℕ} :
    k ∈ visited c es ↔ ∃ s ∈ es, InWindow c k s := by
  rw [visited, List.mem_map]
  constructor
  · rintro ⟨f, hf, rfl⟩
    obtain ⟨hmem, hpos⟩ := mem_of_mem_firsts hf
    exact ⟨f, hmem, inWindow_windowOf hc hpos⟩
  · rintro ⟨s, hs, hwindow⟩
    obtain ⟨hpos, rfl⟩ := (inWindow_iff hc).mp hwindow
    obtain ⟨f, hf, hsame⟩ := exists_first hc hs hpos
    exact ⟨f, hf, ((sameWindow_iff hc).mp hsame).2.2⟩

theorem visited_nodup (hc : 0 < c) (es : List ℕ) : (visited c es).Nodup := by
  induction es using List.reverseRecOn with
  | nil => exact List.nodup_nil
  | append_singleton es e ih =>
      rw [visited, firsts_concat hc]
      split
      next he =>
        rw [List.map_append, List.map_singleton, ← visited]
        refine List.nodup_append'.mpr ⟨ih, List.nodup_singleton _, ?_⟩
        rw [List.disjoint_singleton]
        intro hmem
        obtain ⟨s, hs, hwindow⟩ := (mem_visited hc).mp hmem
        exact he.2 s hs ⟨_, hwindow, inWindow_windowOf hc he.1⟩
      next => exact ih

/-- With looks at windows before the `n`-th only, their number is at most `n`, and `n` if all
of them are looked at. -/
theorem length_visited (hc : 0 < c) {es : List ℕ} {n : ℕ} (h : ∀ k ∈ visited c es, k < n) :
    (visited c es).length ≤ n ∧
      ((visited c es).length = n ↔ ∀ k < n, ∃ s ∈ es, InWindow c k s) := by
  have hsub : (visited c es).Subperm (List.range n) :=
    (visited_nodup hc es).subperm fun k hk => List.mem_range.mpr (h k hk)
  have hle : (visited c es).length ≤ n := le_of_le_of_eq hsub.length_le List.length_range
  simp only [← mem_visited hc]
  refine ⟨hle, fun hlen k hk => ?_, fun hall => Nat.le_antisymm hle ?_⟩
  · have hperm := hsub.perm_of_length_le (List.length_range.trans hlen.symm).le
    exact hperm.mem_iff.mpr (List.mem_range.mpr hk)
  · have hcover : (List.range n).Subperm (visited c es) :=
      List.nodup_range.subperm fun k hk => hall k (List.mem_range.mp hk)
    exact le_of_eq_of_le List.length_range.symm hcover.length_le

/-- Counts by one, and compares with the count times the cycle in numbers below `bound`. -/
def stepTimer (bound c : ℕ) : Timer := ⟨fun n => n * c % bound, fun _ => 1⟩

/-- Counts the cycles that have passed when it fires, and one more. -/
def cycleTimer (bound c : ℕ) : Timer := ⟨fun n => n * c % bound, fun e => e / c + 1⟩

theorem stepTimer_total (bound : ℕ) (es : List ℕ) :
    (stepTimer bound c).total c es = (visited c es).length := by
  rw [Timer.total, stepTimer, List.map_const', List.sum_replicate_nat, visited, List.length_map]
  exact Nat.mul_one _

theorem stepTimer_limit_lt_iff {bound k e n : ℕ} (hbound : c ≤ bound) (hwindow : InWindow c k e)
    (he : e < bound) (hn : n ≤ k + 1) :
    (stepTimer bound c).limit n < e ↔ n ≤ k ∨ bound ≤ (k + 1) * c := by
  obtain ⟨hlower, hupper⟩ := hwindow
  change n * c % bound < e ↔ _
  rcases Nat.lt_or_ge k n with hlt | hle
  · obtain rfl : n = k + 1 := Nat.le_antisymm hn hlt
    have hnot : ¬k + 1 ≤ k := Nat.not_succ_le_self k
    rcases Nat.lt_or_ge ((k + 1) * c) bound with hsmall | hlarge
    · rw [Nat.mod_eq_of_lt hsmall]
      omega
    · -- the product has wrapped, by less than a window
      have hwrapped : (k + 1) * c - bound < e := by
        rw [Nat.succ_mul]
        omega
      rw [Nat.mod_eq_sub_mod hlarge, Nat.mod_eq_of_lt (hwrapped.trans he)]
      exact iff_of_true hwrapped (Or.inr hlarge)
  · have hlt : n * c < e := lt_of_le_of_lt (Nat.mul_le_mul_right c hle) hlower
    rw [Nat.mod_eq_of_lt (hlt.trans he)]
    exact iff_of_true hlt (Or.inl hle)

/-- A timer that counts by one separates the windows if each second look at a window comes
after looks at all windows before it, and the window ends below the bound. -/
theorem stepTimer_separates_iff {bound : ℕ} (hc : 0 < c) (hbound : c ≤ bound) {es : List ℕ}
    (hsorted : es.Pairwise (· ≤ ·)) (hlt : ∀ e ∈ es, e < bound) :
    (stepTimer bound c).Separates c es ↔
      Each (fun before e => (∃ s ∈ before, SameWindow c s e) →
        (windowOf c e + 1) * c < bound ∧ ∀ k < windowOf c e, ∃ s ∈ before, InWindow c k s) es := by
  refine each_congr fun before e after hes => ?_
  have hle : ∀ s ∈ before, s ≤ e := by
    rw [hes, List.pairwise_append] at hsorted
    exact fun s hs => hsorted.2.2 s hs e List.mem_cons_self
  have he : e < bound := hlt e (hes ▸ List.mem_append_right _ List.mem_cons_self)
  rw [stepTimer_total]
  rcases Nat.eq_zero_or_pos e with rfl | hpos
  · -- no window holds 0
    refine iff_of_true (fun h => absurd h (Nat.lt_irrefl 0)) ?_
    rintro ⟨s, -, hsame⟩
    exact absurd ((sameWindow_iff hc).mp hsame).2.1 (Nat.lt_irrefl 0)
  have hwindow := inWindow_windowOf hc hpos
  have hearlier : ∀ k ∈ visited c before, k ≤ windowOf c e := by
    intro k hk
    obtain ⟨s, hs, hsame⟩ := (mem_visited hc).mp hk
    obtain ⟨-, rfl⟩ := (inWindow_iff hc).mp hsame
    exact windowOf_mono (hle s hs)
  obtain ⟨hcount, hall⟩ := length_visited hc fun k hk => Nat.lt_succ_of_le (hearlier k hk)
  rw [stepTimer_limit_lt_iff hbound hwindow he hcount]
  by_cases hrepeated : ∃ s ∈ before, SameWindow c s e
  · obtain ⟨s, hs, k, hks, hke⟩ := hrepeated
    obtain ⟨-, rfl⟩ := (inWindow_iff hc).mp hke
    have hnot : ¬∀ s ∈ before, ¬SameWindow c s e := fun hnew => hnew s hs ⟨_, hks, hke⟩
    have hothers : (∀ k < windowOf c e + 1, ∃ s ∈ before, InWindow c k s) ↔
        ∀ k < windowOf c e, ∃ s ∈ before, InWindow c k s := by
      rw [Nat.forall_lt_succ_right]
      exact and_iff_left ⟨s, hs, hks⟩
    rw [← hothers, ← hall]
    simp only [hpos, true_imp_iff, hnot, iff_false, not_or, Nat.not_le]
    constructor
    · rintro ⟨hmany, hsmall⟩ -
      exact ⟨hsmall, Nat.le_antisymm hcount hmany⟩
    · intro h
      obtain ⟨hsmall, hlen⟩ := h ⟨s, hs, _, hks, hke⟩
      exact ⟨Nat.le_of_eq hlen.symm, hsmall⟩
  · have hnew : ∀ s ∈ before, ¬SameWindow c s e := fun s hs hsame => hrepeated ⟨s, hs, hsame⟩
    have hfew : (visited c before).length ≤ windowOf c e := by
      refine (length_visited hc fun k hk => lt_of_le_of_ne (hearlier k hk) ?_).1
      rintro rfl
      obtain ⟨s, hs, hsame⟩ := (mem_visited hc).mp hk
      exact hnew s hs ⟨_, hsame, hwindow⟩
    exact iff_of_true (fun _ => iff_of_true (Or.inl hfew) hnew) fun h => absurd h hrepeated

end Restore.Cycles
