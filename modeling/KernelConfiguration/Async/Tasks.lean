import Mathlib.Algebra.Group.Nat.Defs
import Mathlib.Data.List.Induction
import Mathlib.Logic.Function.Basic
import KernelConfiguration.Async.Driver

/-!
# The bookkeeping of the tasks

`FillTasks` expands the static rows of `init_info` into the array `info_4`, with
one record per id: how many tasks wait for this one, how many members a group
still has to wait for, and where the task stands. It clears the array, walks the
registration table once, and closes the slots of `none` and of `grp_none`.

One entry of the table touches up to four slots, which may coincide, and modules
and groups share the array. The loop adds up what each entry prescribes
(`KernelConfiguration.Filled`), whatever the order of the entries
(`KernelConfiguration.fillTasks_spec`).

That modules and groups do not get mixed up is only a matter of how the rows are
written. Three of them lack the argument for the group, so that the parent that
follows is taken for it, and a module is counted as a group when one of the three
is registered (`KernelConfiguration.groupsApart_iff`).
-/

namespace KernelConfiguration

/-! ### The array -/

/-- The type `unsigned` of the source. -/
abbrev Unsigned := BitVec 32

/-- **Where a task stands** (`task_status_t_4`). -/
inductive TaskStatus where
  /-- The module is not registered. -/
  | stDisable
  /-- The task has not been started. -/
  | stWaiting
  /-- The task has been started. -/
  | stRunning
  /-- The task is done. -/
  | stDone
  deriving DecidableEq, Repr

/-- The value of a status. -/
def TaskStatus.val : TaskStatus → Unsigned
  | .stDisable => 0
  | .stWaiting => 1
  | .stRunning => 2
  | .stDone => 3

theorem TaskStatus.val_inj {st st' : TaskStatus} : st.val = st'.val ↔ st = st' := by
  cases st <;> cases st' <;> decide

/-- **What is known of a task** (`task_info_t_4`). -/
structure TaskInfo where
  /-- How many modules are needed to release the task. -/
  ref : Unsigned
  /-- Where the task stands. -/
  status : Unsigned
  /-- How many tasks wait for this one. -/
  childCount : Unsigned
  deriving DecidableEq, Repr

/-- **A slot of the array**: there is one for every id, and one for `module_last`,
which is no id. -/
inductive Slot where
  /-- The slot of an id. -/
  | ofId (id : ModulesE)
  /-- The last slot. -/
  | moduleLast
  deriving DecidableEq, Repr

instance : Coe ModulesE Slot := ⟨.ofId⟩

/-- The array `info_4`. -/
abbrev Info4 := Slot → TaskInfo

/-- Changing one slot of the array. -/
def Info4.modify (info : Info4) (i : Slot) (f : TaskInfo → TaskInfo) : Info4 :=
  Function.update info i (f (info i))

/-- Clearing the array (`memset`). -/
def Info4.clear (_ : Info4) : Info4 := fun _ => ⟨0, 0, 0⟩

/-- Setting the status of a slot. -/
def Info4.setStatus (info : Info4) (i : Slot) (st : TaskStatus) : Info4 :=
  info.modify i fun t => { t with status := st.val }

/-- Changing the slot of an id, unless the id stands for none at all. -/
def Info4.count (info : Info4) (noId id : ModulesE) (f : TaskInfo → TaskInfo) : Info4 :=
  if id ≠ noId then info.modify id f else info

/-- A parent has one more task that waits for it. -/
def Info4.countChild (info : Info4) (parent : ModulesE) : Info4 :=
  info.count .none parent fun t => { t with childCount := t.childCount + 1 }

/-- A group waits, and has one more member, which is counted in `ref`. -/
def Info4.countMember (info : Info4) (grp : ModulesE) : Info4 :=
  info.count .grpNone grp fun t =>
    { t with ref := t.ref + 1, status := TaskStatus.stWaiting.val }

/-- One round of the loop of `FillTasks`. -/
def fillStep (info : Info4) (it : InitFn) : Info4 :=
  let nfo := initInfo it.id
  let info := info.setStatus it.id .stWaiting
  let info := info.countChild nfo.parent1Id
  let info := info.countChild nfo.parent2Id
  info.countMember nfo.grpId

/-- **Filling the array from the table** (`FillTasks`). -/
def fillTasks (info : Info4) (T : Table) : Info4 :=
  let info := T.foldl fillStep info.clear
  let info := info.setStatus ModulesE.none .stDone
  info.setStatus ModulesE.grpNone .stDone

variable {info : Info4} {T T' : Table} {i j : Slot} {e : InitFn}

theorem Info4.modify_apply (f : TaskInfo → TaskInfo) :
    info.modify i f j = if j = i then f (info j) else info j := by
  rw [Info4.modify, Function.update_apply]
  by_cases h : j = i
  · rw [if_pos h, if_pos h, h]
  · rw [if_neg h, if_neg h]

theorem Info4.count_apply (noId id : ModulesE) (f : TaskInfo → TaskInfo) :
    info.count noId id f j = if j ≠ noId ∧ (id : Slot) = j then f (info j) else info j := by
  rw [Info4.count]
  by_cases hid : id = noId
  · have hj : ¬(j ≠ noId ∧ (id : Slot) = j) := by
      rintro ⟨hj, rfl⟩
      exact hj (congrArg Slot.ofId hid)
    rw [if_neg (not_not.mpr hid), if_neg hj]
  · rw [if_pos hid, Info4.modify_apply]
    by_cases hj : j = id
    · have hcount : j ≠ noId ∧ (id : Slot) = j :=
        ⟨fun h => hid (Slot.ofId.inj (hj.symm.trans h)), hj.symm⟩
      rw [if_pos hj, if_pos hcount]
    · rw [if_neg hj, if_neg fun h => hj h.2.symm]

section

variable {st : TaskStatus} {p : ModulesE}

@[simp] theorem setStatus_ref : (info.setStatus i st j).ref = (info j).ref := by
  rw [Info4.setStatus, Info4.modify_apply]
  split <;> rfl

@[simp] theorem setStatus_childCount :
    (info.setStatus i st j).childCount = (info j).childCount := by
  rw [Info4.setStatus, Info4.modify_apply]
  split <;> rfl

@[simp] theorem setStatus_status :
    (info.setStatus i st j).status = if j = i then st.val else (info j).status := by
  rw [Info4.setStatus, Info4.modify_apply]
  split <;> rfl

@[simp] theorem countChild_ref : (info.countChild p j).ref = (info j).ref := by
  rw [Info4.countChild, Info4.count_apply]
  split <;> rfl

@[simp] theorem countChild_status : (info.countChild p j).status = (info j).status := by
  rw [Info4.countChild, Info4.count_apply]
  split <;> rfl

@[simp] theorem countMember_childCount :
    (info.countMember p j).childCount = (info j).childCount := by
  rw [Info4.countMember, Info4.count_apply]
  split <;> rfl

@[simp] theorem countMember_status : (info.countMember p j).status =
    if j ≠ ModulesE.grpNone ∧ (p : Slot) = j then TaskStatus.stWaiting.val
    else (info j).status := by
  rw [Info4.countMember, Info4.count_apply]
  split <;> rfl

/-- The child is counted in the slot of its parent. -/
@[simp] theorem countChild_childCount : (info.countChild p j).childCount =
    (info j).childCount +
      BitVec.ofNat 32 (if j ≠ ModulesE.none ∧ (p : Slot) = j then 1 else 0) := by
  rw [Info4.countChild, Info4.count_apply]
  split
  · rfl
  · exact (BitVec.add_zero _).symm

/-- The member is counted in the slot of its group. -/
@[simp] theorem countMember_ref : (info.countMember p j).ref =
    (info j).ref +
      BitVec.ofNat 32 (if j ≠ ModulesE.grpNone ∧ (p : Slot) = j then 1 else 0) := by
  rw [Info4.countMember, Info4.count_apply]
  split
  · rfl
  · exact (BitVec.add_zero _).symm

end

/-! ### What the table prescribes -/

/-- How many entries have the slot as a parent. Nothing waits for `none`. -/
def childrenOf (T : Table) (i : Slot) : ℕ :=
  if i = ModulesE.none then 0
  else T.countP (fun e => ((initInfo e.id).parent1Id : Slot) = i) +
    T.countP fun e => ((initInfo e.id).parent2Id : Slot) = i

/-- How many entries have the slot as their group. Nothing is a member of
`grp_none`. -/
def membersOf (T : Table) (i : Slot) : ℕ :=
  if i = ModulesE.grpNone then 0 else T.countP fun e => ((initInfo e.id).grpId : Slot) = i

/-- **The slot occurs**, as the id or as the group of an entry. -/
def Occurs (T : Table) (i : Slot) : Prop :=
  ∃ e ∈ T, (e.id : Slot) = i ∨ ((initInfo e.id).grpId : Slot) = i

instance : Decidable (Occurs T i) :=
  inferInstanceAs (Decidable (∃ e ∈ T, (e.id : Slot) = i ∨ ((initInfo e.id).grpId : Slot) = i))

/-- **The status that the table prescribes.** -/
def statusOf (T : Table) (i : Slot) : TaskStatus :=
  if i = ModulesE.none ∨ i = ModulesE.grpNone then .stDone
  else if Occurs T i then .stWaiting
  else .stDisable

/-- **What the array holds after some of the entries**: for every slot, what these
entries prescribe, modulo the size of the counters. -/
structure Filled (T : Table) (info : Info4) : Prop where
  /-- The children are counted. -/
  childCount : ∀ i, (info i).childCount = BitVec.ofNat 32 (childrenOf T i)
  /-- The members are counted. -/
  ref : ∀ i, (info i).ref = BitVec.ofNat 32 (membersOf T i)
  /-- What occurs is waiting. -/
  status : ∀ i : Slot, i ≠ ModulesE.grpNone →
    (info i).status = (if Occurs T i then TaskStatus.stWaiting else .stDisable).val

theorem filled_clear (info : Info4) : Filled [] info.clear where
  childCount i := by
    rw [childrenOf]
    split <;> rfl
  ref i := by
    rw [membersOf]
    split <;> rfl
  status i _ := by
    rw [if_neg]
    · rfl
    · rintro ⟨e, he, -⟩
      exact List.not_mem_nil he

theorem childrenOf_snoc : childrenOf (T ++ [e]) i = childrenOf T i +
    ((if i ≠ ModulesE.none ∧ ((initInfo e.id).parent1Id : Slot) = i then 1 else 0) +
      if i ≠ ModulesE.none ∧ ((initInfo e.id).parent2Id : Slot) = i then 1 else 0) := by
  by_cases hi : i = ModulesE.none
  · simp [childrenOf, hi]
  · simp only [childrenOf, hi, if_false, List.countP_append, List.countP_singleton,
      decide_eq_true_eq, ne_eq, not_false_eq_true, true_and]
    omega

theorem membersOf_snoc : membersOf (T ++ [e]) i = membersOf T i +
    if i ≠ ModulesE.grpNone ∧ ((initInfo e.id).grpId : Slot) = i then 1 else 0 := by
  by_cases hi : i = ModulesE.grpNone
  · simp [membersOf, hi]
  · simp only [membersOf, hi, if_false, List.countP_append, List.countP_singleton,
      decide_eq_true_eq, ne_eq, not_false_eq_true, true_and]

theorem occurs_snoc : Occurs (T ++ [e]) i ↔
    Occurs T i ∨ (e.id : Slot) = i ∨ ((initInfo e.id).grpId : Slot) = i := by
  simp only [Occurs, List.mem_append, List.mem_singleton, or_and_right, exists_or, exists_eq_left]

/-- **One round adds what its entry prescribes.** -/
theorem Filled.step (h : Filled T info) (e : InitFn) : Filled (T ++ [e]) (fillStep info e) where
  childCount i := by
    simp only [fillStep, countMember_childCount, countChild_childCount, setStatus_childCount]
    rw [h.childCount, childrenOf_snoc, BitVec.add_assoc, ← BitVec.ofNat_add, ← BitVec.ofNat_add]
  ref i := by
    simp only [fillStep, countMember_ref, countChild_ref, setStatus_ref]
    rw [h.ref, membersOf_snoc, ← BitVec.ofNat_add]
  status i hi := by
    simp only [fillStep, countMember_status, countChild_status, setStatus_status]
    rw [h.status i hi]
    simp only [occurs_snoc]
    by_cases hgrp : ((initInfo e.id).grpId : Slot) = i
    · simp [hgrp, hi]
    · by_cases hid : (e.id : Slot) = i
      · simp [hgrp, hid]
      · simp [hgrp, hid, Ne.symm hid]

/-- **The loop adds up what the entries prescribe.** -/
theorem filled_foldl (info : Info4) (T : Table) : Filled T (T.foldl fillStep info.clear) := by
  induction T using List.reverseRecOn with
  | nil => exact filled_clear info
  | append_singleton T e ih =>
    rw [List.foldl_append, List.foldl_cons, List.foldl_nil]
    exact ih.step e

/-- **What the array holds in the end**, modulo the size of the counters. -/
theorem fillTasks_apply (info : Info4) (T : Table) (i : Slot) : fillTasks info T i =
    ⟨BitVec.ofNat 32 (membersOf T i), (statusOf T i).val, BitVec.ofNat 32 (childrenOf T i)⟩ := by
  have hfilled := filled_foldl info T
  have hstatus : (fillTasks info T i).status = (statusOf T i).val := by
    rw [fillTasks, setStatus_status, statusOf]
    by_cases hgrp : i = ModulesE.grpNone
    · rw [if_pos hgrp, if_pos (Or.inr hgrp)]
    · rw [if_neg hgrp, setStatus_status]
      by_cases hnone : i = ModulesE.none
      · rw [if_pos hnone, if_pos (Or.inl hnone)]
      · rw [if_neg hnone, if_neg (not_or.mpr ⟨hnone, hgrp⟩)]
        exact hfilled.status i hgrp
  have href : (fillTasks info T i).ref = BitVec.ofNat 32 (membersOf T i) := by
    rw [fillTasks, setStatus_ref, setStatus_ref, hfilled.ref]
  have hchild : (fillTasks info T i).childCount = BitVec.ofNat 32 (childrenOf T i) := by
    rw [fillTasks, setStatus_childCount, setStatus_childCount, hfilled.childCount]
  rw [← hstatus, ← href, ← hchild]

/-! ### The order of the entries -/

theorem childrenOf_perm (h : T.Perm T') : childrenOf T i = childrenOf T' i := by
  simp only [childrenOf, h.countP_eq]

theorem membersOf_perm (h : T.Perm T') : membersOf T i = membersOf T' i := by
  simp only [membersOf, h.countP_eq]

theorem statusOf_perm (h : T.Perm T') : statusOf T i = statusOf T' i := by
  have hoccurs : Occurs T i ↔ Occurs T' i :=
    exists_congr fun _ => and_congr_left fun _ => h.mem_iff
  simp only [statusOf, hoccurs]

theorem childrenOf_le (T : Table) (i : Slot) : childrenOf T i ≤ 2 * T.length := by
  rw [childrenOf]
  split
  · exact Nat.zero_le _
  · have h₁ := List.countP_le_length (p := fun e => ((initInfo e.id).parent1Id : Slot) = i) (l := T)
    have h₂ := List.countP_le_length (p := fun e => ((initInfo e.id).parent2Id : Slot) = i) (l := T)
    omega

theorem membersOf_le (T : Table) (i : Slot) : membersOf T i ≤ T.length := by
  rw [membersOf]
  split
  · exact Nat.zero_le _
  · exact List.countP_le_length

/-- **`FillTasks` builds what the table prescribes**, whatever the array held before
and whatever the order of the entries. -/
theorem fillTasks_spec (info : Info4) (T : Table) (hlen : T.length < 2 ^ 31) :
    (∀ i : Slot,
      (fillTasks info T i).childCount.toNat =
        (if i = ModulesE.none then 0
         else T.countP (fun e => ((initInfo e.id).parent1Id : Slot) = i) +
           T.countP fun e => ((initInfo e.id).parent2Id : Slot) = i) ∧
      (fillTasks info T i).ref.toNat =
        (if i = ModulesE.grpNone then 0
         else T.countP fun e => ((initInfo e.id).grpId : Slot) = i) ∧
      (fillTasks info T i).status =
        (if i = ModulesE.none ∨ i = ModulesE.grpNone then TaskStatus.stDone
         else if ∃ e ∈ T, (e.id : Slot) = i ∨ ((initInfo e.id).grpId : Slot) = i then .stWaiting
         else .stDisable).val) ∧
    ∀ (info' : Info4) (T' : Table), T.Perm T' → fillTasks info' T' = fillTasks info T := by
  constructor
  · intro i
    rw [fillTasks_apply]
    have hchild := childrenOf_le T i
    have href := membersOf_le T i
    refine ⟨?_, ?_, rfl⟩
    · rw [BitVec.toNat_ofNat]
      exact Nat.mod_eq_of_lt (by omega)
    · rw [BitVec.toNat_ofNat]
      exact Nat.mod_eq_of_lt (by omega)
  · intro info' T' hperm
    funext i
    rw [fillTasks_apply, fillTasks_apply, childrenOf_perm hperm, membersOf_perm hperm,
      statusOf_perm hperm]

/-- The table of three entries, over an array that is not clear. -/
theorem fillTasks_acpiTable :
    (fillTasks (fun _ => ⟨7, 3, 5⟩) acpiTable ModulesE.acpiAcInit).childCount.toNat = 1 ∧
      fillTasks (fun _ => ⟨0, 0, 0⟩) acpiTable.reverse =
        fillTasks (fun _ => ⟨7, 3, 5⟩) acpiTable := by
  obtain ⟨hslots, horder⟩ := fillTasks_spec (fun _ => ⟨7, 3, 5⟩) acpiTable (by decide)
  exact ⟨(hslots ModulesE.acpiAcInit).1, horder _ _ (List.reverse_perm acpiTable).symm⟩

/-! ### Groups and modules -/

/-- **The groups stay apart from the modules**: no module counts members, and a
module waits exactly if it is registered. -/
def GroupsApart (T : Table) : Prop :=
  ∀ (info : Info4) (i : ModulesE), i ≠ .none → i.isGrp = false →
    (fillTasks info T i).ref = 0 ∧
      (fillTasks info T i).status =
        (if i ∈ T.map InitFn.id then TaskStatus.stWaiting else .stDisable).val

section

variable {id : ModulesE}

/-- An id other than those of the groups is not `grp_none`. -/
theorem membersOf_eq_countP (hid : id.isGrp = false) :
    membersOf T id = T.countP fun e => (initInfo e.id).grpId = id := by
  have hne : (id : Slot) ≠ ModulesE.grpNone := by
    rintro h
    rw [Slot.ofId.inj h] at hid
    exact absurd hid (by decide)
  rw [membersOf, if_neg hne]
  simp only [Slot.ofId.injEq]

/-- An id occurs as a module that is registered, or as the group of another. -/
theorem occurs_iff (hid : id.isGrp = false) :
    Occurs T id ↔ id ∈ T.map InitFn.id ∨ 0 < membersOf T id := by
  rw [membersOf_eq_countP hid, List.countP_pos_iff]
  simp only [Occurs, Slot.ofId.injEq, and_or_left, exists_or, List.mem_map, decide_eq_true_eq]

theorem groupsApart_iff_forall : GroupsApart T ↔ ∀ i : ModulesE, i ≠ .none → i.isGrp = false →
    2 ^ 32 ∣ membersOf T i ∧ (0 < membersOf T i → i ∈ T.map InitFn.id) := by
  have hiff : ∀ (info : Info4) (i : ModulesE), i ≠ .none → i.isGrp = false →
      ((fillTasks info T i).ref = 0 ∧ (fillTasks info T i).status =
          (if i ∈ T.map InitFn.id then TaskStatus.stWaiting else .stDisable).val ↔
        2 ^ 32 ∣ membersOf T i ∧ (0 < membersOf T i → i ∈ T.map InitFn.id)) := by
    intro info i hi hgrp
    have hne : ¬((i : Slot) = ModulesE.none ∨ (i : Slot) = ModulesE.grpNone) := by
      rintro (h | h)
      · exact hi (Slot.ofId.inj h)
      · rw [Slot.ofId.inj h] at hgrp
        exact absurd hgrp (by decide)
    rw [fillTasks_apply, TaskStatus.val_inj, statusOf, if_neg hne]
    refine and_congr ?_ ?_
    · rw [← BitVec.toNat_inj, BitVec.toNat_ofNat, Nat.dvd_iff_mod_eq_zero]
      rfl
    · simp only [occurs_iff hgrp]
      by_cases hmem : i ∈ T.map InitFn.id
      · simp [hmem]
      · by_cases hpos : 0 < membersOf T i
        · simp [hmem, hpos]
        · simp [hmem, hpos]
  constructor
  · exact fun h i hi hgrp => (hiff (fun _ => ⟨0, 0, 0⟩) i hi hgrp).mp (h _ i hi hgrp)
  · exact fun h info i hi hgrp => (hiff info i hi hgrp).mpr (h i hi hgrp)

end

/-- The rows whose group is a module. -/
theorem grpId_eq_iff {id i : ModulesE} (hi : i.isGrp = false) : (initInfo id).grpId = i ↔
    (id = .ohciHcdModInit ∧ i = .ehciPlatformInit) ∨
      ((id = .ohciPciInit ∨ id = .ohciPlatformInit) ∧ i = .ohciHcdModInit) := by
  constructor
  · rintro rfl
    rcases initInfo_grpId id with hgrp | hrow | hrow
    · rw [hi] at hgrp
      exact absurd hgrp Bool.false_ne_true
    · exact Or.inl hrow
    · exact Or.inr hrow
  · rintro (⟨rfl, rfl⟩ | ⟨rfl | rfl, rfl⟩) <;> rfl

/-- The row of `ohci_hcd_mod_init` lacks an argument. -/
theorem membersOf_ehciPlatformInit (T : Table) : membersOf T ModulesE.ehciPlatformInit =
    (T.map InitFn.id).count .ohciHcdModInit := by
  rw [membersOf_eq_countP rfl, List.count, List.countP_map]
  refine List.countP_congr fun e _ => ?_
  rw [decide_eq_true_eq, grpId_eq_iff rfl]
  simp

/-- The rows of `ohci_pci_init` and `ohci_platform_init` lack an argument. -/
theorem membersOf_ohciHcdModInit (T : Table) : membersOf T ModulesE.ohciHcdModInit =
    (T.map InitFn.id).count .ohciPciInit + (T.map InitFn.id).count .ohciPlatformInit := by
  have hrow : ∀ id, (initInfo id).grpId = .ohciHcdModInit ↔
      id = .ohciPciInit ∨ id = .ohciPlatformInit := fun id => by
    rw [grpId_eq_iff rfl]
    simp
  rw [membersOf_eq_countP rfl]
  induction T with
  | nil => rfl
  | cons e T ih =>
    rw [List.countP_cons, ih, List.map_cons, List.count_cons, List.count_cons]
    simp only [hrow, beq_iff_eq, decide_eq_true_eq]
    by_cases hpci : e.id = .ohciPciInit
    · have hplatform : e.id ≠ .ohciPlatformInit := by
        rw [hpci]
        decide
      rw [if_pos (Or.inl hpci), if_pos hpci, if_neg hplatform]
      omega
    · simp only [hpci, false_or, if_false]
      omega

/-- No other row does. -/
theorem membersOf_eq_zero {i : ModulesE} (hi : i.isGrp = false) (hehci : i ≠ .ehciPlatformInit)
    (hohci : i ≠ .ohciHcdModInit) (T : Table) : membersOf T i = 0 := by
  rw [membersOf_eq_countP hi, List.countP_eq_zero]
  rintro e - he
  rw [decide_eq_true_eq, grpId_eq_iff hi] at he
  rcases he with ⟨-, rfl⟩ | ⟨-, rfl⟩
  · exact hehci rfl
  · exact hohci rfl

/-- The two modules that are taken for groups are all there is to look at. -/
theorem groupsApart_iff_members : GroupsApart T ↔
    (2 ^ 32 ∣ membersOf T ModulesE.ehciPlatformInit ∧
      (0 < membersOf T ModulesE.ehciPlatformInit → .ehciPlatformInit ∈ T.map InitFn.id)) ∧
    (2 ^ 32 ∣ membersOf T ModulesE.ohciHcdModInit ∧
      (0 < membersOf T ModulesE.ohciHcdModInit → .ohciHcdModInit ∈ T.map InitFn.id)) := by
  rw [groupsApart_iff_forall]
  constructor
  · exact fun h => ⟨h .ehciPlatformInit (by decide) rfl, h .ohciHcdModInit (by decide) rfl⟩
  · rintro ⟨hehci, hohci⟩ i - hgrp
    by_cases hi : i = .ehciPlatformInit
    · exact hi ▸ hehci
    · by_cases hi' : i = .ohciHcdModInit
      · exact hi' ▸ hohci
      · rw [membersOf_eq_zero hgrp hi hi']
        exact ⟨Nat.dvd_zero _, fun h => absurd h (Nat.lt_irrefl 0)⟩

/-- **When the groups stay apart from the modules**: each of the three modules whose
row lacks an argument is registered only if the module it names is too, and the
members counted there make the counter come round to zero. A table short enough for
the counters has none of the three. -/
theorem groupsApart_iff (T : Table) :
    (GroupsApart T ↔
      (2 ^ 32 ∣ (T.map InitFn.id).count .ohciHcdModInit ∧
        (.ohciHcdModInit ∈ T.map InitFn.id → .ehciPlatformInit ∈ T.map InitFn.id)) ∧
      (2 ^ 32 ∣ (T.map InitFn.id).count .ohciPciInit +
          (T.map InitFn.id).count .ohciPlatformInit ∧
        (.ohciPciInit ∈ T.map InitFn.id ∨ .ohciPlatformInit ∈ T.map InitFn.id →
          .ohciHcdModInit ∈ T.map InitFn.id))) ∧
    (T.length < 2 ^ 32 → (GroupsApart T ↔
      ∀ e ∈ T, e.id ≠ .ohciHcdModInit ∧ e.id ≠ .ohciPciInit ∧ e.id ≠ .ohciPlatformInit)) := by
  have hpos : 0 < (T.map InitFn.id).count .ohciPciInit +
      (T.map InitFn.id).count .ohciPlatformInit ↔
        .ohciPciInit ∈ T.map InitFn.id ∨ .ohciPlatformInit ∈ T.map InitFn.id := by
    rw [Nat.add_pos_iff_pos_or_pos, List.count_pos_iff, List.count_pos_iff]
  have hle₁ := membersOf_le T ModulesE.ehciPlatformInit
  have hle₂ := membersOf_le T ModulesE.ohciHcdModInit
  rw [groupsApart_iff_members]
  rw [membersOf_ehciPlatformInit] at hle₁ ⊢
  rw [membersOf_ohciHcdModInit] at hle₂ ⊢
  rw [List.count_pos_iff, hpos]
  refine ⟨Iff.rfl, fun hlen => ?_⟩
  constructor
  · rintro ⟨⟨hdvd₁, -⟩, ⟨hdvd₂, -⟩⟩ e he
    -- a counter that has come round to zero has not moved
    have hzero₁ := Nat.eq_zero_of_dvd_of_lt hdvd₁ (Nat.lt_of_le_of_lt hle₁ hlen)
    have hzero₂ := Nat.eq_zero_of_dvd_of_lt hdvd₂ (Nat.lt_of_le_of_lt hle₂ hlen)
    have hmem : e.id ∈ T.map InitFn.id := List.mem_map.mpr ⟨e, he, rfl⟩
    refine ⟨?_, ?_, ?_⟩
    · exact fun h => List.count_eq_zero.mp hzero₁ (h ▸ hmem)
    · exact fun h => absurd (hpos.mpr (Or.inl (h ▸ hmem))) (by omega)
    · exact fun h => absurd (hpos.mpr (Or.inr (h ▸ hmem))) (by omega)
  · intro h
    have hnot : ∀ id : ModulesE, (∀ e ∈ T, e.id ≠ id) → id ∉ T.map InitFn.id := by
      intro id hid hmem
      obtain ⟨e, he, heq⟩ := List.mem_map.mp hmem
      exact hid e he heq
    have hhcd := hnot _ fun e he => (h e he).1
    have hpci := hnot _ fun e he => (h e he).2.1
    have hplatform := hnot _ fun e he => (h e he).2.2
    rw [List.count_eq_zero.mpr hhcd, List.count_eq_zero.mpr hpci,
      List.count_eq_zero.mpr hplatform]
    exact ⟨⟨Nat.dvd_zero _, fun hcon => absurd hcon hhcd⟩, ⟨Nat.dvd_zero _,
      fun hcon => absurd hcon (not_or.mpr ⟨hpci, hplatform⟩)⟩⟩

/-- A table without any of the three. -/
theorem groupsApart_acpiTable : GroupsApart acpiTable :=
  ((groupsApart_iff acpiTable).2 (by decide)).mpr (by decide)

/-- **A module that is not registered is left waiting**, and counts a member. -/
theorem not_groupsApart : ¬∀ T, GroupsApart T := by
  intro h
  have hehci := h [⟨.ohciHcdModInit, 1⟩] (fun _ => ⟨0, 0, 0⟩) .ehciPlatformInit (by decide) rfl
  exact absurd hehci.1 (by decide)

end KernelConfiguration
