import Mathlib.Data.List.Basic

/-!
# Runs, guards and histories

A system of parties that take their steps in any order is a partial function
`next : σ → α → Option σ`: the action names the party that moves and what it is
asked to do, and the answer is `none` when the party cannot move. Nothing here
knows what the states are.

Two notions are shared by everything that is said about such a system.

* `KernelConfiguration.Reach` – the states reached by the runs whose every step
  meets a **guard**, a condition on the state before the step and on the action
  taken. The trivial guard gives all runs; a property that only disciplined runs
  have is stated by naming the discipline. `KernelConfiguration.Reach.invariant`
  is the one induction over runs, and everything else is a step lemma.
  `KernelConfiguration.Weighted` are the same runs with the weights of their steps
  added up, for what is to be counted along a run and is not in its states. A system
  that is `KernelConfiguration.watched` keeps what its steps show instead, for what is
  to be said of their order.
* `KernelConfiguration.EveryEvent` – what holds of every event of a **history**
  relative to the events before it. A history is a list with the latest event
  first, so that a step adds its event at the head and the events before an
  event are the tail behind it.
-/

namespace KernelConfiguration

/-! ### Runs under a guard -/

section Reach

variable {σ α : Type*} {next : σ → α → Option σ} {ok : σ → α → Prop} {s₀ s s' : σ}

variable (next ok s₀) in
/-- **The states reached from `s₀`** by runs of `next` whose every step meets
the guard `ok`. -/
inductive Reach : σ → Prop
  /-- The empty run. -/
  | refl : Reach s₀
  /-- One more step, allowed by the guard and enabled in the state. -/
  | step {s s' : σ} (a : α) : Reach s → ok s a → next s a = some s' → Reach s'

/-- **The invariant rule**: what holds at the start and is kept by every step
the guard allows holds in every state reached. -/
theorem Reach.invariant {I : σ → Prop} (h₀ : I s₀)
    (hstep : ∀ s a s', I s → ok s a → next s a = some s' → I s')
    (h : Reach next ok s₀ s) : I s := by
  induction h with
  | refl => exact h₀
  | step a _ hok hnext ih => exact hstep _ a _ ih hok hnext

/-- Runs compose. -/
theorem Reach.trans (h : Reach next ok s₀ s) (h' : Reach next ok s s') :
    Reach next ok s₀ s' := by
  induction h' with
  | refl => exact h
  | step a _ ha hnext ih => exact .step a ih ha hnext

variable (next ok) in
/-- The state after a given list of actions, if each of them is allowed and
enabled in its turn. -/
def runActions [∀ s a, Decidable (ok s a)] : σ → List α → Option σ
  | s, [] => some s
  | s, a :: as => if ok s a then (next s a).bind fun s' => runActions s' as else none

/-- A list of actions that runs through is a run. -/
theorem reach_of_runActions [∀ s a, Decidable (ok s a)] {as : List α}
    (h : runActions next ok s as = some s') : Reach next ok s s' := by
  induction as generalizing s with
  | nil =>
    obtain rfl : s = s' := by simpa [runActions] using h
    exact .refl
  | cons a as ih =>
    by_cases ha : ok s a
    · rw [runActions, if_pos ha] at h
      obtain ⟨t, ht, hrest⟩ := Option.bind_eq_some_iff.mp h
      exact (Reach.step a .refl ha ht).trans (ih hrest)
    · rw [runActions, if_neg ha] at h
      simp at h

end Reach

/-! ### Runs whose steps are counted -/

section Weighted

variable {σ α : Type*} {next : σ → α → Option σ} {ok : σ → α → Prop} {weight : σ → α → ℕ}
  {s₀ s s' : σ} {k : ℕ}

variable (next ok weight s₀) in
/-- **The states reached from `s₀`, each with the weight of the run**: the weights of
its steps, added up. -/
inductive Weighted : ℕ → σ → Prop
  /-- The empty run. -/
  | refl : Weighted 0 s₀
  /-- One more step, allowed by the guard and enabled in the state. -/
  | step {k : ℕ} {s s' : σ} (a : α) : Weighted k s → ok s a → next s a = some s' →
      Weighted (k + weight s a) s'

theorem Weighted.reach (h : Weighted next ok weight s₀ k s) : Reach next ok s₀ s := by
  induction h with
  | refl => exact .refl
  | step a _ hok hnext ih => exact .step a ih hok hnext

/-- **The invariant rule** for a relation between the weight of a run and the state
that it reaches. What is known of all states reached may be used at every step. -/
theorem Weighted.invariant {J : ℕ → σ → Prop} (h₀ : J 0 s₀)
    (hstep : ∀ k s a s', Reach next ok s₀ s → J k s → ok s a → next s a = some s' →
      J (k + weight s a) s')
    (h : Weighted next ok weight s₀ k s) : J k s := by
  induction h with
  | refl => exact h₀
  | step a hrun hok hnext ih => exact hstep _ _ a _ hrun.reach ih hok hnext

variable (next ok weight) in
/-- The state after a given list of actions, with its weight. -/
def runWeighted [∀ s a, Decidable (ok s a)] : ℕ → σ → List α → Option (ℕ × σ)
  | k, s, [] => some (k, s)
  | k, s, a :: as =>
    if ok s a then (next s a).bind fun s' => runWeighted (k + weight s a) s' as else none

/-- A list of actions that runs through is a run with its weight. -/
theorem weighted_of_runWeighted [∀ s a, Decidable (ok s a)] {as : List α} {l : ℕ}
    (hs : Weighted next ok weight s₀ k s) (h : runWeighted next ok weight k s as = some (l, s')) :
    Weighted next ok weight s₀ l s' := by
  induction as generalizing k s with
  | nil =>
    obtain ⟨rfl, rfl⟩ : k = l ∧ s = s' := by simpa [runWeighted] using h
    exact hs
  | cons a as ih =>
    by_cases ha : ok s a
    · rw [runWeighted, if_pos ha] at h
      obtain ⟨t, ht, hrest⟩ := Option.bind_eq_some_iff.mp h
      exact ih (hs.step a ha ht) hrest
    · rw [runWeighted, if_neg ha] at h
      simp at h

end Weighted

/-! ### Runs that are watched -/

section Watched

variable {σ α β : Type*} {next : σ → α → Option σ} {ok : σ → α → Prop} {watch : σ → α → List β}
  {s₀ s : σ} {p p' : σ × List β} {a : α}

variable (next watch) in
/-- **The system, watched**: beside the state stands what the steps have shown, one
after the other. It is there to be spoken of, and has no effect. -/
def watched (p : σ × List β) (a : α) : Option (σ × List β) :=
  (next p.1 a).map fun s' => (s', p.2 ++ watch p.1 a)

theorem watched_eq_some :
    watched next watch p a = some p' ↔ next p.1 a = some p'.1 ∧ p.2 ++ watch p.1 a = p'.2 := by
  rw [watched, Option.map_eq_some_iff]
  constructor
  · rintro ⟨s', hnext, rfl⟩
    exact ⟨hnext, rfl⟩
  · rintro ⟨hnext, hshown⟩
    exact ⟨p'.1, hnext, Prod.ext rfl hshown⟩

/-- A watched run is a run. -/
theorem Reach.of_watched {ok : σ × List β → α → Prop}
    (h : Reach (watched next watch) ok (s₀, []) p) : Reach next (fun _ _ => True) s₀ p.1 := by
  induction h with
  | refl => exact .refl
  | step a _ _ hnext ih => exact .step a ih trivial (watched_eq_some.mp hnext).1

/-- Every run can be watched. -/
theorem Reach.exists_watched (h : Reach next ok s₀ s) :
    ∃ shown, Reach (watched next watch) (fun p => ok p.1) (s₀, []) (s, shown) := by
  induction h with
  | refl => exact ⟨[], .refl⟩
  | step a _ hok hnext ih =>
    obtain ⟨shown, hreach⟩ := ih
    exact ⟨_, hreach.step a hok (watched_eq_some.mpr ⟨hnext, rfl⟩)⟩

end Watched

/-! ### What every event of a history satisfies -/

section History

variable {ε : Type*} {P Q : ε → List ε → Prop} {e : ε} {before log : List ε}

/-- **Every event of the history satisfies `P`**, which reads the event and the
events before it. -/
def EveryEvent (P : ε → List ε → Prop) : List ε → Prop
  | [] => True
  | e :: before => P e before ∧ EveryEvent P before

theorem EveryEvent.imp (h : ∀ e before, P e before → Q e before) (hP : EveryEvent P log) :
    EveryEvent Q log := by
  induction log with
  | nil => trivial
  | cons e before ih => exact ⟨h e before hP.1, ih hP.2⟩

theorem EveryEvent.and (hP : EveryEvent P log) (hQ : EveryEvent Q log) :
    EveryEvent (fun e before => P e before ∧ Q e before) log := by
  induction log with
  | nil => trivial
  | cons e before ih => exact ⟨⟨hP.1, hQ.1⟩, ih hP.2 hQ.2⟩

/-- What the first of the events like this one found behind it. -/
theorem EveryEvent.exists_first (h : EveryEvent P log) (he : e ∈ log) :
    ∃ before, P e before ∧ EveryEvent P before ∧ e ∉ before := by
  induction log with
  | nil => simp at he
  | cons e₀ before ih =>
    by_cases hmem : e ∈ before
    · exact ih h.2 hmem
    · obtain rfl := (List.mem_cons.mp he).resolve_right hmem
      exact ⟨before, h.1, h.2, hmem⟩

/-- What an event that has happened found behind it. -/
theorem EveryEvent.exists_before (h : EveryEvent P log) (he : e ∈ log) :
    ∃ before, P e before ∧ ∀ e' ∈ before, e' ∈ log := by
  induction log with
  | nil => simp at he
  | cons e₀ before ih =>
    rcases List.mem_cons.mp he with rfl | he
    · exact ⟨before, h.1, fun e' => List.mem_cons_of_mem _⟩
    · obtain ⟨b, hb, hsub⟩ := ih h.2 he
      exact ⟨b, hb, fun e' he' => List.mem_cons_of_mem _ (hsub e' he')⟩

end History

end KernelConfiguration
