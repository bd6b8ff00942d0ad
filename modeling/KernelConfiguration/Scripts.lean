import Mathlib.Data.List.Basic
import Mathlib.Data.List.Infix
import KernelConfiguration.Runs

/-!
# Parties that play scripts

The plainest system of several parties: each of them has a script, a list of events
that it goes through in their order, and nothing is said about who moves when. A
history of such a system (`KernelConfiguration.play`) is an interleaving of the
scripts as far as they have been played: what one party has done is the beginning of
its script (`KernelConfiguration.reach_play_iff`).

Such a system is what a more concrete one is compared with. That a concrete system
does no more is an invariant of it, since a history is an interleaving or is not; that
it does no less is a matter of realising the abstract steps one by one
(`KernelConfiguration.Reach.realises`).

Scripts of jobs that start and finish one after the other
(`KernelConfiguration.jobScript`) are where the events come from in what follows.
-/

namespace KernelConfiguration

/-! ### Playing scripts -/

section Play

variable {ε ω : Type*} [DecidableEq ε] [DecidableEq ω] {owner : ε → ω} {script : ω → List ε}
  {h : List ε} {e : ε} {w : ω}

/-- **What a party has done**: the events of a history that are its own. -/
def partOf (owner : ε → ω) (w : ω) (h : List ε) : List ε := h.filter (owner · = w)

/-- **The history interleaves the scripts**: what each party has done is the
beginning of its script. -/
def Interleaves (owner : ε → ω) (script : ω → List ε) (h : List ε) : Prop :=
  ∀ w, partOf owner w h <+: script w

/-- **The system in which every party plays its script**: an event happens if it is
the next one in the script of its owner. The state is the history. -/
def play (owner : ε → ω) (script : ω → List ε) (h : List ε) (e : ε) : Option (List ε) :=
  if partOf owner (owner e) h ++ [e] <+: script (owner e) then some (h ++ [e]) else none

omit [DecidableEq ε] in
theorem partOf_snoc_self : partOf owner (owner e) (h ++ [e]) = partOf owner (owner e) h ++ [e] := by
  simp [partOf]

omit [DecidableEq ε] in
theorem partOf_snoc_of_ne (hw : owner e ≠ w) : partOf owner w (h ++ [e]) = partOf owner w h := by
  simp [partOf, hw]

omit [DecidableEq ε] in
/-- One more event. -/
theorem interleaves_snoc : Interleaves owner script (h ++ [e]) ↔
    Interleaves owner script h ∧ partOf owner (owner e) h ++ [e] <+: script (owner e) := by
  constructor
  · intro hint
    have hself := hint (owner e)
    rw [partOf_snoc_self] at hself
    refine ⟨fun w => ?_, hself⟩
    by_cases hw : owner e = w
    · subst hw
      exact (List.prefix_append _ _).trans hself
    · have hother := hint w
      rwa [partOf_snoc_of_ne hw] at hother
  · rintro ⟨hint, hself⟩ w
    by_cases hw : owner e = w
    · subst hw
      rwa [partOf_snoc_self]
    · rw [partOf_snoc_of_ne hw]
      exact hint w

/-- **The histories that can be played are the interleavings of the scripts.** -/
theorem reach_play_iff :
    Reach (play owner script) (fun _ _ => True) [] h ↔ Interleaves owner script h := by
  constructor
  · intro hreach
    refine hreach.invariant (I := Interleaves owner script)
      (fun _ => by simp [partOf]) ?_
    intro h e h' hint _ hplay
    rw [play] at hplay
    split at hplay
    · rw [← Option.some.inj hplay]
      exact interleaves_snoc.mpr ⟨hint, ‹_›⟩
    · exact absurd hplay.symm (Option.some_ne_none h')
  · -- the last event of an interleaving can be played after the others
    induction h using List.reverseRecOn with
    | nil => exact fun _ => .refl
    | append_singleton h e ih =>
      intro hint
      obtain ⟨hint, hself⟩ := interleaves_snoc.mp hint
      exact .step e (ih hint) trivial (if_pos hself)

end Play

/-! ### Comparing two systems -/

section Compare

variable {σ α τ β : Type*} {next : σ → α → Option σ} {ok : σ → α → Prop} {s₀ s : σ}
  {next' : τ → β → Option τ} {ok' : τ → β → Prop} {t : τ}

/-- **Completeness**: if from every state of a kind that can be reached each step of
the abstract system can be realised by a run to such a state, the concrete system
reaches what the abstract one does. -/
theorem Reach.realises {R : σ → Prop} (abs : σ → τ) (h₀ : R s₀)
    (hstep : ∀ s b t, Reach next ok s₀ s → R s → ok' (abs s) b → next' (abs s) b = some t →
      ∃ s', Reach next ok s s' ∧ R s' ∧ abs s' = t)
    (h : Reach next' ok' (abs s₀) t) : ∃ s, Reach next ok s₀ s ∧ R s ∧ abs s = t := by
  induction h with
  | refl => exact ⟨s₀, .refl, h₀, rfl⟩
  | step b _ hok hnext ih =>
    obtain ⟨s, hs, hR, rfl⟩ := ih
    obtain ⟨s', hs', hR', habs⟩ := hstep s b _ hs hR hok hnext
    exact ⟨s', hs.trans hs', hR', habs⟩

end Compare

/-! ### Scripts of jobs -/

section Jobs

variable {ι ε : Type*} {start finish : ι → ε} {l l' : List ι} {j : ι} {e : ε}

/-- **The script of a list of jobs**, each of which starts and finishes before the
next one starts. -/
def jobScript (start finish : ι → ε) (l : List ι) : List ε :=
  l.flatMap fun j => [start j, finish j]

theorem jobScript_append : jobScript start finish (l ++ l') =
    jobScript start finish l ++ jobScript start finish l' := List.flatMap_append

theorem jobScript_snoc : jobScript start finish (l ++ [j]) =
    jobScript start finish l ++ [start j, finish j] := by
  rw [jobScript_append]
  rfl

theorem jobScript_prefix (h : l <+: l') :
    jobScript start finish l <+: jobScript start finish l' := by
  obtain ⟨rest, rfl⟩ := h
  rw [jobScript_append]
  exact List.prefix_append _ _

/-- Behind jobs that have finished comes the start of the next one. -/
theorem exists_start_of_prefix (h : l <+: l')
    (he : jobScript start finish l ++ [e] <+: jobScript start finish l') :
    ∃ j, e = start j ∧ l ++ [j] <+: l' := by
  obtain ⟨rest, rfl⟩ := h
  rw [jobScript_append, List.prefix_append_right_inj] at he
  cases rest with
  | nil => simp [jobScript] at he
  | cons j rest =>
    refine ⟨j, ?_, ?_⟩
    · simpa [jobScript] using he
    · rw [List.prefix_append_right_inj, List.cons_prefix_cons]
      exact ⟨rfl, List.nil_prefix⟩

/-- Behind a job that has started comes its finish. -/
theorem eq_finish_of_prefix (h : l ++ [j] <+: l')
    (he : jobScript start finish l ++ [start j] ++ [e] <+: jobScript start finish l') :
    e = finish j := by
  obtain ⟨rest, rfl⟩ := h
  rw [jobScript_append, jobScript_snoc, List.append_assoc, List.append_assoc,
    List.prefix_append_right_inj] at he
  simpa using he

end Jobs

end KernelConfiguration
