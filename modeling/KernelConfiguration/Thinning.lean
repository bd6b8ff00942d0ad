import Mathlib.Data.List.Basic
import Mathlib.Data.List.Infix

/-!
# Thinning a list against itself

A list is gone through once, from its first entry to its last, and an entry is taken
out when another entry that is *still there* is above it, in the sense of some
relation. The entries are compared with what is left, and not with what there was, so
it is not clear at once that the result does not depend on what was taken out before.

If the relation is transitive, it does not (`KernelConfiguration.exists_left_iff`). An
entry stays when nothing behind it is above it, and nothing before it is above it
without being below it as well (`KernelConfiguration.Stays`). What is left
(`KernelConfiguration.thin`) covers the list, and no two of the entries left are
comparable unless they are equal. Nothing is asked of the relation but transitivity:
among entries that are above each other, the last one stays.
-/

namespace KernelConfiguration

variable {α : Type*} {R : α → α → Prop} {pre post l : List α} {c d : α}

/-- **The entry `d` stays** between the entries before it and those behind it. -/
def Stays (R : α → α → Prop) (pre : List α) (d : α) (post : List α) : Prop :=
  (∀ c ∈ post, c ≠ d → ¬R c d) ∧ ∀ c ∈ pre, c ≠ d → R c d → R d c

open Classical in
/-- The entries of a list that stay, when there are others before it and behind it. -/
noncomputable def thinBetween (R : α → α → Prop) (pre : List α) : List α → List α → List α
  | [], _ => []
  | d :: l, post =>
    (if Stays R pre d (l ++ post) then [d] else []) ++ thinBetween R (pre ++ [d]) l post

/-- The entries of a list that stay, when there are others behind it. -/
noncomputable abbrev thinBefore (R : α → α → Prop) (l post : List α) : List α :=
  thinBetween R [] l post

/-- **The entries of a list that stay.** -/
noncomputable def thin (R : α → α → Prop) (l : List α) : List α := thinBefore R l []

/-! ### What is left -/

open Classical in
theorem thinBetween_append (l l' : List α) : ∀ pre, thinBetween R pre (l ++ l') post =
    thinBetween R pre l (l' ++ post) ++ thinBetween R (pre ++ l) l' post := by
  induction l with
  | nil => exact fun pre => by rw [List.append_nil]; rfl
  | cons d l ih =>
    intro pre
    rw [List.cons_append, thinBetween, thinBetween, ih, List.append_assoc l, List.append_assoc pre,
      List.append_assoc]
    rfl

open Classical in
/-- The next entry is looked at. -/
theorem thinBefore_snoc : thinBefore R (l ++ [d]) post =
    thinBefore R l (d :: post) ++ if Stays R l d post then [d] else [] := by
  rw [thinBefore, thinBetween_append]
  simp [thinBetween]

theorem sublist_thinBetween (l : List α) : ∀ pre, (thinBetween R pre l post).Sublist l := by
  classical
  induction l with
  | nil => exact fun _ => .slnil
  | cons d l ih =>
    intro pre
    rw [thinBetween]
    split
    · exact (ih _).cons_cons d
    · exact (ih _).cons d

/-- An entry that is left stays at some place of it. -/
theorem stays_of_mem_thinBetween (l : List α) : ∀ pre, d ∈ thinBetween R pre l post →
    ∃ l₁ l₂, l = l₁ ++ d :: l₂ ∧ Stays R (pre ++ l₁) d (l₂ ++ post) := by
  classical
  induction l with
  | nil => exact fun _ h => absurd h List.not_mem_nil
  | cons c l ih =>
    intro pre h
    rw [thinBetween, List.mem_append] at h
    rcases h with h | h
    · split at h
      · obtain rfl := List.mem_singleton.mp h
        exact ⟨[], l, rfl, by rwa [List.append_nil]⟩
      · exact absurd h List.not_mem_nil
    · obtain ⟨l₁, l₂, rfl, hstays⟩ := ih _ h
      exact ⟨c :: l₁, l₂, rfl, by rwa [List.append_assoc] at hstays⟩

theorem stays_of_mem_thinBefore (h : d ∈ thinBefore R l post) :
    ∃ l₁ l₂, l = l₁ ++ d :: l₂ ∧ Stays R l₁ d (l₂ ++ post) := by
  simpa using stays_of_mem_thinBetween l [] h

/-! ### Comparing with what is left -/

/-- An entry that does not stay has something above it among what is left, if what is
left covers what was there. -/
theorem exists_left_of_not_stays (htrans : ∀ x y z, R x y → R y z → R x z)
    (hcover : ∀ c ∈ pre, ∃ x ∈ thinBefore R pre (d :: post) ++ d :: post, x = c ∨ R x c)
    (h : ¬Stays R pre d post) :
    ∃ x ∈ thinBefore R pre (d :: post) ++ post, x ≠ d ∧ R x d := by
  by_cases hpost : ∀ c ∈ post, c ≠ d → ¬R c d
  · obtain ⟨c, hc, hne, hcd, hdc⟩ : ∃ c ∈ pre, c ≠ d ∧ R c d ∧ ¬R d c := by
      by_contra hcon
      refine h ⟨hpost, fun c hc hne hcd => ?_⟩
      by_contra hdc
      exact hcon ⟨c, hc, hne, hcd, hdc⟩
    obtain ⟨x, hx, hxc⟩ := hcover c hc
    -- what covers `c` cannot be `d` itself, which is not above `c`
    have hxd : x ≠ d := by
      rintro rfl
      rcases hxc with rfl | hxc
      · exact hne rfl
      · exact hdc hxc
    have habove : R x d := by
      rcases hxc with rfl | hxc
      · exact hcd
      · exact htrans x c d hxc hcd
    rw [List.mem_append, List.mem_cons] at hx
    refine ⟨x, List.mem_append.mpr ?_, hxd, habove⟩
    rcases hx with hx | rfl | hx
    · exact Or.inl hx
    · exact absurd rfl hxd
    · exact Or.inr hx
  · obtain ⟨c, hc, hne, hcd⟩ : ∃ c ∈ post, c ≠ d ∧ R c d := by
      by_contra hcon
      exact hpost fun c hc hne hcd => hcon ⟨c, hc, hne, hcd⟩
    exact ⟨c, List.mem_append_right _ hc, hne, hcd⟩

/-- **What is left covers what was there.** -/
theorem exists_left_covering (htrans : ∀ x y z, R x y → R y z → R x z) (l : List α) :
    ∀ post, ∀ c ∈ l, ∃ x ∈ thinBefore R l post ++ post, x = c ∨ R x c := by
  classical
  induction l using List.reverseRecOn with
  | nil => exact fun _ _ h => absurd h List.not_mem_nil
  | append_singleton l d ih =>
    intro post c hc
    have hd : ∃ x ∈ thinBefore R (l ++ [d]) post ++ post, x = d ∨ R x d := by
      rw [thinBefore_snoc]
      by_cases hstays : Stays R l d post
      · exact ⟨d, by simp [hstays], Or.inl rfl⟩
      · obtain ⟨x, hx, -, hxd⟩ := exists_left_of_not_stays htrans (ih (d :: post)) hstays
        refine ⟨x, ?_, Or.inr hxd⟩
        rwa [if_neg hstays, List.append_nil]
    rcases List.mem_append.mp hc with hc | hc
    · obtain ⟨x, hx, hxc⟩ := ih (d :: post) c hc
      by_cases hxd : x = d
      · -- the covering entry is the one looked at, and is itself covered
        obtain ⟨y, hy, hyd⟩ := hd
        subst hxd
        refine ⟨y, hy, ?_⟩
        rcases hyd with rfl | hyx
        · exact hxc
        · rcases hxc with rfl | hxc
          · exact Or.inr hyx
          · exact Or.inr (htrans y x c hyx hxc)
      · refine ⟨x, ?_, hxc⟩
        rw [thinBefore_snoc, List.mem_append, List.mem_append]
        rw [List.mem_append, List.mem_cons] at hx
        rcases hx with hx | hx | hx
        · exact Or.inl (Or.inl hx)
        · exact absurd hx hxd
        · exact Or.inr hx
    · obtain rfl := List.mem_singleton.mp hc
      exact hd

/-- **Comparing with what is left is enough**: an entry has something above it among
what is left if and only if it does not stay. -/
theorem exists_left_iff (htrans : ∀ x y z, R x y → R y z → R x z) :
    (∃ x ∈ thinBefore R pre (d :: post) ++ post, x ≠ d ∧ R x d) ↔ ¬Stays R pre d post := by
  constructor
  · rintro ⟨x, hx, hne, hxd⟩ hstays
    rcases List.mem_append.mp hx with hx | hx
    · -- an entry that stays has nothing above it behind it
      obtain ⟨l₁, l₂, rfl, hxstays⟩ := stays_of_mem_thinBefore hx
      refine hxstays.1 d (List.mem_append_right _ (.head _)) hne.symm ?_
      exact hstays.2 x (List.mem_append_right _ (.head _)) hne hxd
    · exact hstays.1 x hx hne hxd
  · exact exists_left_of_not_stays htrans (exists_left_covering htrans pre _)

/-- **What is left is not comparable.** -/
theorem not_rel_of_mem_thin (hc : c ∈ thin R l) (hd : d ∈ thin R l) (hne : c ≠ d) : ¬R c d := by
  intro hcd
  obtain ⟨k₁, k₂, hk, hcstays⟩ := stays_of_mem_thinBefore hc
  obtain ⟨l₁, l₂, hl, hdstays⟩ := stays_of_mem_thinBefore hd
  rw [List.append_nil] at hcstays hdstays
  rcases List.append_eq_append_iff.mp (hk.symm.trans hl) with ⟨m, hm, hrest⟩ | ⟨m, hm, hrest⟩
  · -- `c` comes first, and `d` is behind it
    cases m with
    | nil => exact hne (List.cons.inj hrest).1
    | cons c' m =>
      obtain ⟨rfl, rfl⟩ := List.cons.inj hrest
      refine hcstays.1 d (List.mem_append_right _ (.head _)) hne.symm ?_
      refine hdstays.2 c ?_ hne hcd
      rw [hm]
      exact List.mem_append_right _ (.head _)
  · cases m with
    | nil => exact hne (List.cons.inj hrest).1.symm
    | cons d' m =>
      obtain ⟨rfl, rfl⟩ := List.cons.inj hrest
      exact hdstays.1 c (List.mem_append_right _ (.head _)) hne hcd

/-- Every entry of the list is left, or has one that is left above it. -/
theorem exists_mem_thin (htrans : ∀ x y z, R x y → R y z → R x z) (hd : d ∈ l) :
    ∃ c ∈ thin R l, c = d ∨ R c d := by
  simpa [thin] using exists_left_covering htrans l [] d hd

theorem sublist_thin : (thin R l).Sublist l := sublist_thinBetween l []

/-- A list of at most one entry is left as it is. -/
theorem thin_of_length_le (h : l.length ≤ 1) : thin R l = l := by
  match l, h with
  | [], _ => rfl
  | [d], _ => simp [thin, thinBetween, Stays]

end KernelConfiguration
