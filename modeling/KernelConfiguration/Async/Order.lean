import Mathlib.Data.List.Basic
import KernelConfiguration.Async.Partition
import KernelConfiguration.Async.Sequential

/-!
# When the order of the table is the order of the boot

A row of `init_info` may name one or two parents, modules or groups that its
initcall has to come after. Neither consumer of the table looks at these columns:
the source relies on the link order, in which a parent is registered before what
depends on it.

Link order is enough between two entries of the same type, because each consumer
walks the table forwards and waits for every initcall it starts
(`KernelConfiguration.Sound`). It is worth nothing between an asynchronized
parent and a deferred child: the client that reads the device does not wait for
the thread. `KernelConfiguration.dependencyOrder_iff` says that this is the only
way to go wrong, and that a table with such a pair always can.
-/

namespace KernelConfiguration

variable {T : Table} {i j : ℕ}

/-! ### Parents -/

/-- The module `q` is a parent of the module `e`: a column of `e` names it, or
names the group it belongs to. -/
def ModulesE.IsParentOf (q e : ModulesE) : Prop :=
  ∃ p ∈ [(initInfo e).parent1Id, (initInfo e).parent2Id],
    p ≠ .none ∧ (q = p ∨ (p.isGrp = true ∧ (initInfo q).grpId = p))

instance (q e : ModulesE) : Decidable (q.IsParentOf e) :=
  inferInstanceAs (Decidable (∃ p ∈ [(initInfo e).parent1Id, (initInfo e).parent2Id],
    p ≠ .none ∧ (q = p ∨ (p.isGrp = true ∧ (initInfo q).grpId = p))))

/-- The entry at position `i` is a parent of the entry at position `j`. -/
def IsParent (T : Table) (i j : ℕ) : Prop :=
  ∃ q e, T[i]? = some q ∧ T[j]? = some e ∧ q.id.IsParentOf e.id

/-- **The table is in link order**: parents come before what depends on them. -/
def ParentsEarlier (T : Table) : Prop := ∀ i j, IsParent T i j → i < j

/-- Link order, read off the entries. -/
theorem parentsEarlier_iff : ParentsEarlier T ↔
    ∀ i : Fin T.length, ∀ j : Fin T.length, (T.get i).id.IsParentOf (T.get j).id → i < j := by
  constructor
  · intro h i j hij
    exact h i j ⟨_, _, List.getElem?_eq_getElem i.isLt, List.getElem?_eq_getElem j.isLt, hij⟩
  · rintro h i j ⟨q, e, hq, he, hqe⟩
    obtain ⟨hi, rfl⟩ := List.getElem?_eq_some_iff.mp hq
    obtain ⟨hj, rfl⟩ := List.getElem?_eq_some_iff.mp he
    exact h ⟨i, hi⟩ ⟨j, hj⟩ hqe

instance (T : Table) : Decidable (ParentsEarlier T) := decidable_of_iff' _ parentsEarlier_iff

/-- **The order a boot has to keep**: when an initcall starts, those of its
parents have returned, the disabled ones aside. -/
def DependencyOrder (T : Table) (log : List Event) : Prop :=
  EveryEvent (fun e before => ∀ j, e = .callStart j →
    ∀ i, IsParent T i j → typeAt T i ≠ some .disable → .callReturn i ∈ before) log

/-- No entry of the table has a type beyond the three the rows use. -/
theorem typeAt_cases {e : InitFn} (h : T[i]? = some e) :
    typeAt T i = some .asynchronized ∨ typeAt T i = some .deferred ∨
      typeAt T i = some .disable := by
  rw [typeAt_eq_some h]
  rcases initInfo_type e.id with ht | ht | ht <;> simp [ht]

/-- An asynchronized entry has no deferred parent: its row names neither a group
nor a deferred module. -/
theorem IsParent.not_deferred (h : IsParent T i j) (hj : typeAt T j = some .asynchronized) :
    typeAt T i ≠ some .deferred := by
  obtain ⟨q, e, hq, he, p, hp, -, hqp⟩ := h
  rw [typeAt_eq_some he, Option.some.injEq] at hj
  obtain ⟨hg₁, hg₂⟩ := initInfo_parents_not_grp e.id hj
  obtain ⟨hd₁, hd₂⟩ := initInfo_parents_not_deferred e.id hj
  have hpar : p.isGrp = false ∧ (initInfo p).type ≠ .deferred := by
    rcases List.mem_cons.mp hp with rfl | hp
    · exact ⟨hg₁, hd₁⟩
    · obtain rfl := List.mem_singleton.mp hp
      exact ⟨hg₂, hd₂⟩
  rw [typeAt_eq_some hq, Ne, Option.some.injEq]
  rcases hqp with rfl | ⟨hgrp, -⟩
  · exact hpar.2
  · simp [hpar.1] at hgrp

/-! ### The order of every run -/

/-- **The order of the table is kept by every run exactly when no deferred entry
has an asynchronized parent.** In one direction the invariant does the work: an
initcall starts behind the entries of its own type, and its parents are among
them. In the other the client is faster than the thread. -/
theorem dependencyOrder_iff (hT : ParentsEarlier T) :
    (∀ s, Reachable T anyStep s → DependencyOrder T s.log) ↔
      ∀ i j, IsParent T i j → typeAt T j = some .deferred →
        typeAt T i ≠ some .asynchronized := by
  constructor
  · intro h i j hij hj hi
    -- the thread has started nothing, and so not the parent either
    obtain ⟨s, log, hs, hthread, hlog⟩ := exists_start_deferred hj
    have horder := h s hs
    rw [hlog] at horder
    have hret : .callReturn i ∈ s.log := by
      rw [hlog]
      exact List.mem_cons_of_mem _ (horder.1 j rfl i hij (by rw [hi]; simp))
    have hmem : i ∈ startedOf T .asynchronized s.log := by
      rw [startedOf, List.mem_filter]
      exact ⟨hs.sound.mem_started_of_return hret, by simpa using hi⟩
    rw [hs.startedOf_asynchronized, hthread] at hmem
    simp [ThreadPc.reached] at hmem
  · intro h s hs
    refine hs.sound.events.imp ?_
    rintro e before hsound j rfl i hij hi
    obtain ⟨t, ht, hj, hran⟩ := hsound
    -- a parent that is not disabled is of the type of its child
    have hit : typeAt T i = some t := by
      obtain ⟨q, -, hq, -⟩ := id hij
      rcases ht with rfl | rfl
      · have := hij.not_deferred hj
        rcases typeAt_cases hq with hq | hq | hq <;> simp_all
      · have := h i j hij hj
        rcases typeAt_cases hq with hq | hq | hq <;> simp_all
    exact hran i (hT i j hij) hit

/-- A table of two deferred entries, a group member and a module that comes after
the group. -/
def ssbTable : Table := [⟨.ssbModinit, 1⟩, ⟨.b43Init, 2⟩]

/-- Two reads of `KernelConfiguration.ssbTable` start both initcalls, in order. -/
theorem dependencyOrder_ssbTable :
    ∃ s, Reachable ssbTable anyStep s ∧ .callStart 1 ∈ s.log ∧ DependencyOrder ssbTable s.log := by
  obtain ⟨s, hs⟩ : ∃ s, runActions (step ssbTable) anyStep (asyncInit bootState)
      [.openDevice, .read 0 30, .resume 0, .resume 0, .resume 0, .resume 0,
        .read 0 30, .resume 1, .resume 1] = some s := ⟨_, rfl⟩
  have hreach : Reachable ssbTable anyStep s := reach_of_runActions hs
  have horder : ∀ s, Reachable ssbTable anyStep s → DependencyOrder ssbTable s.log := by
    refine (dependencyOrder_iff (by decide)).mpr ?_
    rintro i j ⟨q, e, hq, -⟩ - hi
    rw [typeAt_eq_some hq, Option.some.injEq] at hi
    have hmem := List.mem_of_getElem? hq
    simp only [ssbTable, List.mem_cons, List.not_mem_nil, or_false] at hmem
    rcases hmem with rfl | rfl <;> revert hi <;> decide
  refine ⟨s, hreach, ?_, horder s hreach⟩
  obtain rfl := Option.some.inj hs
  decide

/-- **The client overtakes the thread**: `KernelConfiguration.acpiTable` is in
link order, and a read that comes before the first step of the thread starts the
driver before its parent. -/
theorem not_dependencyOrder_acpiTable :
    ParentsEarlier acpiTable ∧
      ¬∀ s, Reachable acpiTable anyStep s → DependencyOrder acpiTable s.log := by
  refine ⟨by decide, fun h => ?_⟩
  obtain ⟨s, hs⟩ : ∃ s, runActions (step acpiTable) anyStep (asyncInit bootState)
      [.openDevice, .read 0 30, .resume 0, .resume 0, .resume 0] = some s := ⟨_, rfl⟩
  have horder := h s (reach_of_runActions hs)
  obtain rfl := Option.some.inj hs
  have hret := horder.1 1 rfl 0 ⟨_, _, rfl, rfl, by decide⟩ (by decide)
  revert hret
  decide

end KernelConfiguration
