import Ish.Process.Children

set_option autoImplicit false

/-! # The table as a scan sees it

A scan of `do_wait` reads of a task who leads its group, who its parent is and whether it is a
zombie. Here is what each step does to these rows: all but an exit leave the rows of the tasks that
stay as they are, and an exit gives the children of the thread to its heir and may make the leader
a zombie.
-/

namespace Ish.Process

open Option Ish.Lib

namespace Procs

/-- A task without its list of children. -/
def row (T : Task) : Pid × Option Pid × Bool × Bool := (T.group, T.parent, T.zombie, T.exiting)

def SameRow (s s' : Procs) (x : Pid) : Prop := (s'.task x).map row = (s.task x).map row

section SameRow

variable {s s' : Procs} {x : Pid}

theorem SameRow.get (h : SameRow s s' x) {X' : Task} (hX' : s'.task x = some X') :
    ∃ X, s.task x = some X ∧ X.group = X'.group ∧ X.parent = X'.parent ∧
      X.zombie = X'.zombie ∧ X.exiting = X'.exiting := by
  unfold SameRow at h
  rw [hX', map_some] at h
  obtain ⟨X, hX, hrow⟩ := map_eq_some_iff.mp h.symm
  simp only [row, Prod.mk.injEq] at hrow
  exact ⟨X, hX, hrow⟩

theorem SameRow.groupOf (h : SameRow s s' x) : s'.groupOf x = s.groupOf x := by
  have hfst := congrArg (Option.map Prod.fst) h
  rw [Option.map_map, Option.map_map] at hfst
  exact hfst

theorem SameRow.exiting (h : SameRow s s' x) :
    (s'.task x).map Task.exiting = (s.task x).map Task.exiting := by
  have hlast := congrArg (Option.map fun r => r.2.2.2) h
  rw [Option.map_map, Option.map_map] at hlast
  exact hlast

end SameRow

/-! ## The steps that are no exit -/

section Steps

variable {s s' : Procs}

theorem SameKin.row (h : SameKin s s') (x : Pid) : SameRow s s' x := by
  have hkin := h.task x
  have hzombie := h.zombie x
  unfold SameRow
  rcases hX : s.task x with _ | X
  · simpa [hX] using hkin
  cases hX' : s'.task x with
  | none => simp [hX, hX'] at hkin
  | some X' =>
    simp only [hX, hX', map_some, some.injEq, kin, Prod.mk.injEq] at hkin hzombie
    simp only [map_some, some.injEq, Procs.row, Prod.mk.injEq]
    exact ⟨hkin.1, hkin.2.1, hzombie, hkin.2.2.2⟩

/-- The new task is alive, and the others keep their rows. -/
theorem Wf.clone_row (h : s.Wf) {t p : Pid} {thread : Bool}
    (hlive : ((s.task t).map Task.exiting) = some false) (hclone : s.clone t p thread = some s')
    (x : Pid) :
    SameRow s s' x ∨ (s.task x = none ∧ ∀ X', s'.task x = some X' → X'.zombie = false) := by
  obtain ⟨T, G, -, -, hp, hT, -, hcases⟩ := clone_cases hclone
  have hlive : T.exiting = false := by simpa [hT] using hlive
  have hzombie : T.zombie = false := by
    cases hz : T.zombie with
    | false => rfl
    | true => simp [(h.zombie t T hT hz).2.1] at hlive
  have htask : ∃ g, s'.task = (s.taskCreate t p T g).task := by
    rcases hcases with ⟨-, rfl⟩ | ⟨-, rfl⟩
    · exact ⟨T.group, rfl⟩
    · exact ⟨p, rfl⟩
  obtain ⟨g, htask⟩ := htask
  by_cases hx : x = p
  · refine .inr ⟨hx ▸ hp, ?_⟩
    intro X' hX'
    rw [htask, taskCreate_task, if_pos hx] at hX'
    rw [← some.inj hX']
    exact hzombie
  refine .inl ?_
  unfold SameRow
  rw [htask, taskCreate_task, if_neg hx, map_map]
  rfl

theorem Wf.reap_task (h : s.Wf) {z : Pid} (hz : s.isZombie z) (x : Pid) :
    (s.reap z).task x =
      if x = z then none
      else (s.task x).map (fun X => { X with children := X.children.erase z }) := by
  obtain ⟨Z, hZ, -⟩ := hz
  exact taskDestroy_task
    (s := { s with
      group := Function.update s.group z none
      session := unlink s.session z
      pgroup := unlink s.pgroup z }) hZ (h.parent_of_mem hZ) x

/-- The zombie goes, and the others keep their rows. -/
theorem Wf.reap_row (h : s.Wf) {z : Pid} (hz : s.isZombie z) (x : Pid) :
    SameRow s (s.reap z) x ∨ (s.isZombie x ∧ (s.reap z).task x = none) := by
  rw [h.reap_task hz]
  by_cases hx : x = z
  · rw [if_pos hx]
    exact .inr ⟨hx ▸ hz, rfl⟩
  refine .inl ?_
  unfold SameRow
  rw [h.reap_task hz, if_neg hx, map_map]
  rfl

end Steps

/-! ## An exit -/

/-- Who is given the children of the thread when it exits: the first other thread of its group, or
else `init`. -/
def heir (s : Procs) (t : Pid) : Pid :=
  (((s.groupOf t).bind s.group).bind fun G => G.threads.find? (· != t)).getD 1

def lastThread (s : Procs) (t : Pid) : Bool :=
  ((s.groupOf t).bind s.group).map TGroup.threads == some [t]

/-- The group that hears of the end of the process of `t`. -/
def parentGroup (s : Procs) (t : Pid) : Option Pid :=
  (((s.groupOf t).bind s.task).bind Task.parent).bind s.groupOf

section Exit

variable {s s' : Procs} {t np : Pid} {T : Task} {status : Nat} {g : Option Pid}

theorem Family.findNewParent_eq_heir (h : s.Family) (hT : s.task t = some T)
    (hnp : (s.markExiting t status).findNewParent T.group = some np) : np = s.heir t := by
  obtain ⟨G, hG⟩ := h.group t T hT
  -- the threads of a group are alive, but for the one that exits
  have hfind : (G.threads.find? fun p =>
      (((s.markExiting t status).task p).map Task.exiting) == some false) =
      G.threads.find? (· != t) := by
    apply List.find?_congr
    intro x hx
    obtain ⟨X, hX, hXg⟩ := map_eq_some_iff.mp ((h.threads _ G hG).2 x hx)
    have hex := (h.thread x X G hX (hXg ▸ hG)).mp hx
    by_cases hxt : x = t
    · simp [markExiting, hxt, hT]
    · simp [markExiting, hxt, hX, hex]
  have hgroup : (s.markExiting t status).group T.group = some G := hG
  unfold findNewParent at hnp
  simp only [hgroup, map_some, getD_some, hfind] at hnp
  simp only [heir, groupOf, hT, map_some, bind_some, hG]
  cases hfirst : G.threads.find? (· != t) with
  | none =>
    simp only [hfirst, ite_none_right_eq_some, some.injEq] at hnp
    exact hnp.2.symm
  | some p =>
    simp only [hfirst, some.injEq] at hnp
    exact hnp.symm

theorem Family.groupDead_leaveGroup (h : s.Family) (hT : s.task t = some T)
    (hlive : T.exiting = false) :
    (s.leaveGroup t T status np).groupDead T.group = s.lastThread t := by
  obtain ⟨G, hG⟩ := h.group t T hT
  have hmem : t ∈ G.threads := (h.thread t T G hT hG).mpr hlive
  have hiff : G.threads.erase t = [] ↔ G.threads = [t] := by
    rw [List.erase_eq_nil_iff]
    exact or_iff_right (List.ne_nil_of_mem hmem)
  rw [Bool.eq_iff_iff]
  simp only [groupDead, lastThread, groupOf, hT, map_some, bind_some, hG,
    leaveGroup_group, if_true, beq_iff_eq, some.injEq]
  exact hiff

theorem dropThread_row (s : Procs) (t l x : Pid) :
    ((s.dropThread t l).task x).map row =
      if x = t ∧ t ≠ l then none else (s.task x).map row := by
  unfold dropThread
  by_cases hl : t = l
  · simp [hl]
  rw [if_neg hl]
  by_cases hx : x = t
  · simp [taskDestroy, hx, hl]
  simp only [taskDestroy, hx, false_and, if_false, ne_eq, not_false_eq_true, Function.update_of_ne]
  split
  · rfl
  rw [modTask_task]
  split
  · rw [map_map]
    rfl
  · rfl

theorem dropThread_group (s : Procs) (t l : Pid) : (s.dropThread t l).group = s.group := by
  unfold dropThread taskDestroy
  split
  · rfl
  · split <;> rfl

/-- Of the groups, an exit changes the one that the thread leaves. -/
theorem doExit_group (hexit : s.doExit t status = some (s', g)) :
    ∃ T np, s.task t = some T ∧ s'.group = (s.leaveGroup t T status np).group := by
  obtain ⟨T, np, hT, -, hcases⟩ := doExit_cases hexit
  refine ⟨T, np, hT, ?_⟩
  rcases hcases with ⟨-, q, -, rfl, -⟩ | ⟨-, rfl, -⟩
  · rw [dropThread_group]
    rfl
  · rw [dropThread_group]

theorem doExit_pgidOf (hexit : s.doExit t status = some (s', g)) : s'.pgidOf = s.pgidOf := by
  obtain ⟨T, np, -, hgroup⟩ := doExit_group hexit
  rw [← (sameGroups_leaveGroup s t T status np).pgidOf]
  unfold pgidOf
  rw [hgroup]

/-- An exit comes to its end unless it is that of the last thread of `init`. -/
theorem Wf.doExit_ne_none (h : s.Wf) (hT : s.task t = some T) (hlive : T.exiting = false)
    (hend : T.group = 1 → s.lastThread t = false) : s.doExit t status ≠ none := by
  have hnp : (s.markExiting t status).findNewParent T.group ≠ none := by
    unfold findNewParent
    dsimp only
    split
    · simp
    obtain ⟨I, hI, -, -, hz⟩ := h.init
    have hget : ((s.markExiting t status).pidGetTask 1).isSome = true := by
      have hlook : ((s.markExiting t status).task 1).map Task.zombie = some false := by
        rw [markExiting, modTask_task, hI]
        split <;> simp [hz]
      obtain ⟨I', hI', hz'⟩ := map_eq_some_iff.mp hlook
      have hle : 1 ≤ MAX_PID + 1 := Nat.le_add_left 1 MAX_PID
      simp [pidGetTask, pidGetTaskZombie, pidGet, pidEmpty, hI', hz', hle]
    simp [hget]
  obtain ⟨np, hnp⟩ := ne_none_iff_exists'.mp hnp
  unfold Procs.doExit
  simp only [hT, hnp, h.groupDead_leaveGroup hT hlive]
  split
  · rename_i hlast
    have hg : T.group ≠ 1 := fun hg => by simp [hend hg] at hlast
    have hne : np ≠ t := by
      rcases findNewParent_spec h.toFamily hnp with ⟨hne, -⟩ | ⟨rfl, -⟩
      · exact hne
      rintro rfl
      obtain ⟨I, hI, hgI, -⟩ := h.init
      obtain rfl := Option.mem_unique hT hI
      exact hg hgI
    -- the leader has a parent
    obtain ⟨G, hG⟩ := h.group t T hT
    obtain ⟨L, hL, -⟩ := map_eq_some_iff.mp (h.leader _ G hG)
    obtain ⟨L', hL', -, -, hp⟩ := leaveGroup_put status hT hne hL
    have hparent : L'.parent ≠ none := by
      rw [hp]
      split
      · simp
      · exact fun hnone => hg (h.rooted _ L hL hnone)
    obtain ⟨q, hq⟩ := ne_none_iff_exists'.mp hparent
    simp [hL', hq]
  · simp

theorem Wf.heir_ne (h : s.Wf) (hT : s.task t = some T)
    (hexit : s.doExit t status = some (s', g)) : s.heir t ≠ t := by
  obtain ⟨T', np, hT', hnp, -⟩ := doExit_cases hexit
  obtain rfl := Option.mem_unique hT hT'
  rw [← h.findNewParent_eq_heir hT hnp]
  exact (h.doExit_newParent hT hnp hexit).1

variable (h : s.Wf) (hT : s.task t = some T) (hlive : T.exiting = false)
  (hexit : s.doExit t status = some (s', g))

include h hT hlive hexit

/-- **What an exit does to the rows.** -/
theorem Wf.doExit_row (x : Pid) :
    (s'.task x).map row =
      if x = t ∧ t ≠ T.group then none
      else (s.task x).map fun X =>
        (X.group, if X.parent = some t then some (s.heir t) else X.parent,
          X.zombie || (decide (x = T.group) && s.lastThread t), decide (x = t) || X.exiting) := by
  obtain ⟨T', np, hT', hnp, hcases⟩ := doExit_cases hexit
  obtain rfl := Option.mem_unique hT hT'
  have hne := (h.doExit_newParent hT hnp hexit).1
  have hheir := h.findNewParent_eq_heir hT hnp
  dsimp only at hcases
  rw [h.groupDead_leaveGroup hT hlive] at hcases
  have hleave : ((s.leaveGroup t T status np).task x).map row = (s.task x).map fun X =>
      (X.group, if X.parent = some t then some (s.heir t) else X.parent, X.zombie,
        decide (x = t) || X.exiting) := by
    rw [leaveGroup_task status hT hne, map_map]
    cases hX : s.task x with
    | none => rfl
    | some X =>
      have hmem := h.mem_children hT hX
      simp [row, hmem, hheir]
  rcases hcases with ⟨hlast, q, -, rfl, -⟩ | ⟨hlast, rfl, -⟩
  · rw [dropThread_row]
    split
    · rfl
    rw [modTask_task]
    split
    · rename_i hx
      have hzombie : (fun L : Task => row { L with zombie := true }) =
          (fun r => (r.1, r.2.1, true, r.2.2.2)) ∘ row := rfl
      rw [map_map, show row ∘ (fun L : Task => { L with zombie := true }) = _ from hzombie,
        ← map_map, hleave, map_map]
      cases s.task x <;> simp [hx, hlast]
    rename_i hx
    rw [hleave]
    cases s.task x <;> simp [hx]
  · rw [dropThread_row]
    split
    · rfl
    rw [hleave]
    cases s.task x <;> simp [hlast]

/-- A task after an exit, and what it was. -/
theorem Wf.doExit_get {x : Pid} {X' : Task} (hX' : s'.task x = some X') :
    ∃ X, s.task x = some X ∧ X'.group = X.group ∧
      X'.parent = (if X.parent = some t then some (s.heir t) else X.parent) ∧
      X'.zombie = (X.zombie || (decide (x = T.group) && s.lastThread t)) := by
  have hrow := h.doExit_row hT hlive hexit x
  rw [hX', map_some] at hrow
  split at hrow
  · simp at hrow
  obtain ⟨X, hX, heq⟩ := map_eq_some_iff.mp hrow.symm
  simp only [row, Prod.mk.injEq] at heq
  exact ⟨X, hX, heq.1.symm, heq.2.1.symm, heq.2.2.1.symm⟩

/-- The other tasks are still there. -/
theorem Wf.doExit_put {x : Pid} (hx : x ≠ t) {X : Task} (hX : s.task x = some X) :
    ∃ X', s'.task x = some X' ∧ X'.group = X.group ∧ X'.exiting = X.exiting ∧
      X'.parent = (if X.parent = some t then some (s.heir t) else X.parent) ∧
      (X.zombie = true → X'.zombie = true) := by
  have hrow := h.doExit_row hT hlive hexit x
  rw [if_neg (fun hcon => hx hcon.1), hX, map_some] at hrow
  obtain ⟨X', hX', heq⟩ := map_eq_some_iff.mp hrow
  simp only [row, Prod.mk.injEq, hx, decide_false, Bool.false_or] at heq
  obtain ⟨hgroup, hparent, hzombie, hexiting⟩ := heq
  refine ⟨X', hX', hgroup, hexiting, hparent, ?_⟩
  intro hz
  rw [hzombie, hz, Bool.true_or]

theorem Wf.doExit_groupOf {x : Pid} (hx : x ≠ t) : s'.groupOf x = s.groupOf x := by
  have hrow := congrArg (Option.map Prod.fst) (h.doExit_row hT hlive hexit x)
  rw [if_neg (fun hcon => hx hcon.1), Option.map_map, Option.map_map] at hrow
  exact hrow

/-- The group that an exit notifies. -/
theorem Wf.doExit_notified : g = if s.lastThread t then s.parentGroup t else none := by
  obtain ⟨T', np, hT', hnp, hcases⟩ := doExit_cases hexit
  obtain rfl := Option.mem_unique hT hT'
  have hne := (h.doExit_newParent hT hnp hexit).1
  dsimp only at hcases
  rw [h.groupDead_leaveGroup hT hlive] at hcases
  rcases hcases with ⟨hlast, q, hq, -, rfl⟩ | ⟨hlast, -, rfl⟩
  · rw [if_pos hlast]
    obtain ⟨L', hL', hparent'⟩ := bind_eq_some_iff.mp hq
    obtain ⟨L, hL, hg, -, -, hp, -⟩ := leaveGroup_get status hT hne hL'
    obtain ⟨G, hG⟩ := h.group t T hT
    have hlead : L.group = T.group := by simpa [groupOf, hL] using h.leader _ G hG
    -- the parent of the leader is in another group, so it is not the thread that exits
    have hnot : T.group ∉ T.children := by
      intro hmem
      have hLt := (h.mem_children hT hL).mp hmem
      exact h.outer _ L t hL hlead hLt (by simp [groupOf, hT])
    rw [if_neg hnot] at hp
    have hparent : L.parent = some q := hp.symm.trans hparent'
    have hgroupOf : ((s.leaveGroup t T status np).modTask T.group
        (fun L => { L with zombie := true })).groupOf q = s.groupOf q := by
      have hsame := sameTree_modTask (s.leaveGroup t T status np) T.group
        (f := fun L => { L with zombie := true }) fun _ => rfl
      rw [hsame.groupOf, leaveGroup_groupOf status hT hne]
    rw [hgroupOf]
    have hgt : s.groupOf t = some T.group := by simp [groupOf, hT]
    simp only [parentGroup, hgt, bind_some, hL, hparent]
  · rw [if_neg (by simp [hlast])]

end Exit

end Procs

end Ish.Process
