import Ish.Process.Wait

set_option autoImplicit false

/-! # Process groups and sessions

The lists of the process table say which thread groups a process group, or a session, consists
of, and the groups say it once more with their `pgid` and `sid`. Signals to a process group go by
the lists.

Both tables record the numbers as long as two slips are not met. `sys_setpgid` moves a group into
the list of the entry of `id`, the process that is moved, not of `pgid`, the process group that it
joins. And `task_setsid` moves it into the lists of the calling thread's entry, under the number of
the leader, which is another entry when the caller is not the leader.
-/

namespace Ish.Process

open Option Function Ish.Lib

namespace Procs

variable {s s' : Procs} {g p t : Pid} {id pgid status : Nat} {G : TGroup}

/-! ## Lookups after an update -/

section Lookups

variable (s : Procs) (p : Pid)

@[simp] theorem modTask_task (f : Task → Task) (q : Pid) :
    (s.modTask p f).task q = if q = p then (s.task q).map f else s.task q := by
  unfold modTask
  by_cases h : q = p
  · subst h
    simp
  · simp [h]

theorem modTask_map {α : Type} {f : Task → Task} {k : Task → α} (hf : ∀ T, k (f T) = k T)
    (q : Pid) : ((s.modTask p f).task q).map k = (s.task q).map k := by
  rw [modTask_task]
  split
  · cases s.task q <;> simp [hf]
  · rfl

@[simp] theorem modTask_group (f : Task → Task) : (s.modTask p f).group = s.group := rfl

@[simp] theorem modGroup_group (f : TGroup → TGroup) (q : Pid) :
    (s.modGroup p f).group q = if q = p then (s.group q).map f else s.group q := by
  unfold modGroup
  by_cases h : q = p
  · subst h
    simp
  · simp [h]

theorem modGroup_map {α : Type} {f : TGroup → TGroup} {k : TGroup → α} (hf : ∀ G, k (f G) = k G)
    (q : Pid) : ((s.modGroup p f).group q).map k = (s.group q).map k := by
  rw [modGroup_group]
  split
  · cases s.group q <;> simp [hf]
  · rfl

@[simp] theorem modGroup_task (f : TGroup → TGroup) : (s.modGroup p f).task = s.task := rfl

theorem modGroup_group_none (f : TGroup → TGroup) (q : Pid) :
    (s.modGroup p f).group q = none ↔ s.group q = none := by
  rw [modGroup_group]
  split <;> simp

variable {s p} in
/-- Where groups have their leaders, a task that does not lead its group leads none. -/
theorem group_none_of_leader (h : ∀ g G, s.group g = some G → s.groupOf g = some g)
    (hp : s.groupOf p ≠ some p) : s.group p = none := by
  cases hG : s.group p with
  | none => rfl
  | some G => exact absurd (h p G hG) hp

end Lookups

/-! ## What the lists are to say -/

def pgidOf (s : Procs) (g : Pid) : Option Pid := (s.group g).map TGroup.pgid

def sidOf (s : Procs) (g : Pid) : Option Pid := (s.group g).map TGroup.sid

/-- A group is in the list of its process group and of its session, and in no other; and a signal
to a process group goes to the groups with that number. -/
structure Linked (s : Procs) : Prop where
  pgroup : ∀ g G, s.group g = some G → ∀ p, g ∈ s.pgroup p ↔ G.pgid = p
  session : ∀ g G, s.group g = some G → ∀ p, g ∈ s.session p ↔ G.sid = p
  reaches : ∀ p g, g ∈ (s.groupSignal p).getD [] ↔ ∃ G, s.group g = some G ∧ G.pgid = p

/-- The invariant behind it: the tables are those of the two numbers, the numbers are pids, and a
group has the task of its leader. -/
structure Grouped (s : Procs) : Prop where
  pgroup : Records s.pgroup s.pgidOf
  session : Records s.session s.sidOf
  range : ∀ p T, s.task p = some T → p ≤ MAX_PID
  pgidRange : ∀ g p, s.pgidOf g = some p → p ≤ MAX_PID
  leader : ∀ g G, s.group g = some G → s.groupOf g = some g

theorem Grouped.linked (h : s.Grouped) : s.Linked := by
  have hpgroup : ∀ g p, g ∈ s.pgroup p ↔ ∃ G, s.group g = some G ∧ G.pgid = p := by
    intro g p
    rw [h.pgroup.mem_iff]
    simp [pgidOf]
  refine ⟨?_, ?_, ?_⟩
  · intro g G hG p
    rw [hpgroup]
    simp [hG]
  · intro g G hG p
    rw [h.session.mem_iff]
    simp [sidOf, hG]
  intro p g
  rw [← hpgroup]
  unfold groupSignal pidGet
  -- an entry that is not found has no groups
  by_cases hmem : g ∈ s.pgroup p
  · have hle : p ≤ MAX_PID + 1 :=
      Nat.le_succ_of_le (h.pgidRange g p ((h.pgroup.mem_iff g p).mp hmem))
    have hne : s.pidEmpty p = false := by
      have : s.pgroup p ≠ [] := List.ne_nil_of_mem hmem
      simp [pidEmpty, this]
    simp [hle, hne, hmem]
  split
  · simp [hmem]
  · simp [hmem]

/-- Everything that matters here is the same in the two states. -/
structure SameGroups (s s' : Procs) : Prop where
  pgroup : s'.pgroup = s.pgroup
  session : s'.session = s.session
  pgidOf : s'.pgidOf = s.pgidOf
  sidOf : s'.sidOf = s.sidOf
  task : ∀ p T', s'.task p = some T' → ∃ T, s.task p = some T
  leader : ∀ g G, s.group g = some G → s'.groupOf g = s.groupOf g

theorem SameGroups.group_none (h : SameGroups s s') : s'.group g = none ↔ s.group g = none := by
  have hpg := congrFun h.pgidOf g
  rw [← map_eq_none_iff (f := TGroup.pgid), ← map_eq_none_iff (f := TGroup.pgid)]
  exact iff_of_eq (congrArg (· = none) hpg)

theorem Grouped.of_same (h : s.Grouped) (hsame : SameGroups s s') : s'.Grouped := by
  refine ⟨?_, ?_, ?_, ?_, ?_⟩
  · rw [hsame.pgroup, hsame.pgidOf]
    exact h.pgroup
  · rw [hsame.session, hsame.sidOf]
    exact h.session
  · intro p T' hT'
    obtain ⟨T, hT⟩ := hsame.task p T' hT'
    exact h.range p T hT
  · rw [hsame.pgidOf]
    exact h.pgidRange
  intro g G' hG'
  obtain ⟨G, hG⟩ := ne_none_iff_exists'.mp ((hsame.group_none (g := g)).not.mp (by simp [hG']))
  rw [hsame.leader g G hG]
  exact h.leader g G hG

theorem SameGroups.trans {s1 s2 s3 : Procs} (h1 : SameGroups s1 s2) (h2 : SameGroups s2 s3) :
    SameGroups s1 s3 := by
  refine ⟨h2.pgroup.trans h1.pgroup, h2.session.trans h1.session, h2.pgidOf.trans h1.pgidOf,
    h2.sidOf.trans h1.sidOf, ?_, ?_⟩
  · intro p T hT
    obtain ⟨T', hT'⟩ := h2.task p T hT
    exact h1.task p T' hT'
  intro g G hG
  obtain ⟨G', hG'⟩ := ne_none_iff_exists'.mp ((h1.group_none (g := g)).not.mpr (by simp [hG]))
  rw [h2.leader g G' hG', h1.leader g G hG]

/-- A task that keeps its group. -/
theorem sameGroups_modTask (s : Procs) (p : Pid) {f : Task → Task}
    (hf : ∀ T, (f T).group = T.group) : SameGroups s (s.modTask p f) := by
  refine ⟨rfl, rfl, rfl, rfl, ?_, ?_⟩
  · intro q T' hT'
    rw [modTask_task] at hT'
    split at hT'
    · obtain ⟨T, hT, -⟩ := map_eq_some_iff.mp hT'
      exact ⟨T, hT⟩
    · exact ⟨T', hT'⟩
  · exact fun g _ _ => modTask_map s p hf g

/-- A group that keeps its numbers. -/
theorem sameGroups_modGroup (s : Procs) (p : Pid) {f : TGroup → TGroup}
    (hf : ∀ G, (f G).pgid = G.pgid ∧ (f G).sid = G.sid) : SameGroups s (s.modGroup p f) := by
  refine ⟨rfl, rfl, ?_, ?_, fun q T hT => ⟨T, hT⟩, fun g _ _ => rfl⟩
  · exact funext (modGroup_map s p fun G => (hf G).1)
  · exact funext (modGroup_map s p fun G => (hf G).2)

/-! ## The steps that move no group -/

section Same

variable (s : Procs)

theorem sameGroups_refl : SameGroups s s :=
  ⟨rfl, rfl, rfl, rfl, fun _ T hT => ⟨T, hT⟩, fun _ _ _ => rfl⟩

theorem sameGroups_reparent (t np c : Pid) : SameGroups s (reparent t np s c) := by
  refine .trans (.trans (sameGroups_modTask s c ?_) (sameGroups_modTask _ t ?_))
    (sameGroups_modTask _ np ?_)
  · exact fun _ => rfl
  · exact fun _ => rfl
  · exact fun _ => rfl

theorem sameGroups_foldl_reparent (t np : Pid) (cs : List Pid) :
    SameGroups s (cs.foldl (reparent t np) s) := by
  induction cs generalizing s with
  | nil => exact sameGroups_refl s
  | cons c cs ih => exact (sameGroups_reparent s t np c).trans (ih (reparent t np s c))

/-- A task that is destroyed is no leader. -/
theorem sameGroups_taskDestroy {t : Pid} (ht : s.group t = none) :
    SameGroups s (s.taskDestroy t) := by
  have hmod : ∀ s1 : Procs, s1.group t = none →
      SameGroups s1 { s1 with task := update s1.task t none } := by
    intro s1 ht1
    refine ⟨rfl, rfl, rfl, rfl, ?_, ?_⟩
    · intro p T hT
      by_cases hp : p = t
      · simp [hp] at hT
      · exact ⟨T, by simpa [hp] using hT⟩
    intro g G hG
    have hne : g ≠ t := by
      rintro rfl
      simp [ht1] at hG
    simp [groupOf, hne]
  unfold taskDestroy
  split
  · exact hmod s ht
  refine .trans (sameGroups_modTask s _ ?_) (hmod _ ht)
  exact fun _ => rfl

theorem sameGroups_report {t : Pid} {r : Report} {s' : Procs} {g : Option Pid}
    (h : s.report t r = some (s', g)) : SameGroups s s' := by
  rcases report_effect h with rfl | ⟨p, f, rfl, hf⟩ | ⟨stopped, sig, rfl⟩
  · exact sameGroups_refl s'
  · exact sameGroups_modGroup s p fun G => (hf G).2
  · exact sameGroups_modTask s t fun _ => rfl

theorem sameGroups_leaveGroup (t : Pid) (T : Task) (status : Nat) (np : Pid) :
    SameGroups s (s.leaveGroup t T status np) := by
  refine .trans (.trans (sameGroups_modTask s t ?_)
    (sameGroups_foldl_reparent _ t np T.children)) (sameGroups_modGroup _ T.group ?_)
  · exact fun _ => rfl
  · exact fun _ => ⟨rfl, rfl⟩

end Same

theorem sameGroups_doExit (h : s.Grouped) {g : Option Pid}
    (hexit : s.doExit t status = some (s', g)) : SameGroups s s' := by
  obtain ⟨T, np, hT, -, hcases⟩ := doExit_cases hexit
  have hleave := sameGroups_leaveGroup s t T status np
  -- a thread that is dropped leads no group
  have hdrop : ∀ s1, SameGroups s s1 → SameGroups s (s1.dropThread t T.group) := by
    intro s1 h1
    unfold dropThread
    split
    · exact h1
    rename_i hne
    refine h1.trans (sameGroups_taskDestroy s1 (h1.group_none.mpr ?_))
    exact group_none_of_leader h.leader (by simpa [groupOf, hT, eq_comm] using hne)
  rcases hcases with ⟨-, q, -, rfl, -⟩ | ⟨-, rfl, -⟩
  · refine hdrop _ (hleave.trans (sameGroups_modTask _ T.group ?_))
    exact fun _ => rfl
  · exact hdrop _ hleave

/-! ## Forking and reaping -/

/-- One group that is added, changed or taken away, with both lists. -/
theorem Grouped.regroup (h : s.Grouped) (g : Pid) (o : Option TGroup) (htask : s'.task = s.task)
    (hgroup : s'.group = update s.group g o)
    (hpgroup : Records s'.pgroup (update s.pgidOf g (o.map TGroup.pgid)))
    (hsession : Records s'.session (update s.sidOf g (o.map TGroup.sid)))
    (ho : ∀ G, o = some G → G.pgid ≤ MAX_PID ∧ s.groupOf g = some g) : s'.Grouped := by
  have hpgid : s'.pgidOf = update s.pgidOf g (o.map TGroup.pgid) := by
    unfold pgidOf
    rw [hgroup]
    exact comp_update (Option.map TGroup.pgid) s.group g o
  have hsid : s'.sidOf = update s.sidOf g (o.map TGroup.sid) := by
    unfold sidOf
    rw [hgroup]
    exact comp_update (Option.map TGroup.sid) s.group g o
  refine ⟨hpgid ▸ hpgroup, hsid ▸ hsession, htask ▸ h.range, ?_, ?_⟩
  · intro q n hn
    rw [hpgid] at hn
    by_cases hq : q = g
    · rw [hq, update_self] at hn
      obtain ⟨G, hG, rfl⟩ := map_eq_some_iff.mp hn
      exact (ho G hG).1
    · exact h.pgidRange q n (by simpa [hq] using hn)
  intro q Q hQ
  rw [hgroup] at hQ
  unfold groupOf
  rw [htask]
  by_cases hq : q = g
  · rw [hq, update_self] at hQ
    exact hq ▸ (ho Q hQ).2
  · exact h.leader q Q (by simpa [hq] using hQ)

theorem Grouped.reap (h : s.Grouped) (z : Pid) : (s.reap z).Grouped := by
  have hdestroy : SameGroups
      { s with
        group := update s.group z none
        session := unlink s.session z
        pgroup := unlink s.pgroup z } (s.reap z) :=
    sameGroups_taskDestroy _ (by simp)
  refine .of_same ?_ hdestroy
  exact h.regroup z none rfl rfl (h.pgroup.unlink z) (h.session.unlink z) (by simp)

theorem Grouped.group_none (h : s.Grouped) (hp : s.task p = none) : s.group p = none :=
  group_none_of_leader h.leader (by simp [groupOf, hp])

/-- A new task that leads no group yet. -/
theorem Grouped.taskCreate (h : s.Grouped) (t : Pid) (hp : s.task p = none) (hle : p ≤ MAX_PID)
    (T : Task) (g : Pid) : (s.taskCreate t p T g).Grouped := by
  have hgp := h.group_none hp
  refine ⟨h.pgroup, h.session, ?_, h.pgidRange, ?_⟩
  · intro q Q hQ
    by_cases hq : q = p
    · rw [hq]
      exact hle
    simp only [Procs.taskCreate, ne_eq, hq, not_false_eq_true, update_of_ne, modTask_task] at hQ
    split at hQ
    · obtain ⟨Q', hQ', -⟩ := map_eq_some_iff.mp hQ
      exact h.range q Q' hQ'
    · exact h.range q Q hQ
  intro g' G hG
  have hG : s.group g' = some G := hG
  have hne : g' ≠ p := by
    intro heq
    rw [heq, hgp] at hG
    simp at hG
  have hlead := h.leader g' G hG
  simp only [groupOf, Procs.taskCreate, ne_eq, hne, not_false_eq_true, update_of_ne,
    modTask_task] at hlead ⊢
  split
  · simpa using hlead
  · exact hlead

theorem Grouped.tgroupCopy (h : s.Grouped) (hG : s.group g = some G) (hp : s.group p = none)
    (hlead : s.groupOf p = some p) : (s.tgroupCopy g p G).Grouped := by
  refine h.regroup p (some { G with threads := [p], doingGroupExit := false }) rfl rfl ?_ ?_ ?_
  · exact h.pgroup.linkAfter (by simp [pgidOf, hG]) (by simp [pgidOf, hp])
  · exact h.session.linkAfter (by simp [sidOf, hG]) (by simp [sidOf, hp])
  rintro _ ⟨⟩
  exact ⟨h.pgidRange g G.pgid (by simp [pgidOf, hG]), hlead⟩

theorem Grouped.clone (h : s.Grouped) {thread : Bool} (hclone : s.clone t p thread = some s') :
    s'.Grouped := by
  obtain ⟨T, G, -, hle, hp, -, hG, hcases⟩ := clone_cases hclone
  rcases hcases with ⟨-, rfl⟩ | ⟨-, rfl⟩
  · refine (h.taskCreate t hp hle T T.group).of_same (sameGroups_modGroup _ _ ?_)
    exact fun _ => ⟨rfl, rfl⟩
  refine (h.taskCreate t hp hle T p).tgroupCopy hG (h.group_none hp) ?_
  simp [groupOf, Procs.taskCreate]

/-! ## Moving a group -/

theorem setpgidCheck_ok (h : s.setpgidCheck t id pgid = .ok g) :
    ∃ T G, s.task id = some T ∧ T.group = g ∧ s.group g = some G ∧
      (id = t ∨ T.parent = some t) := by
  unfold setpgidCheck at h
  split at h
  · cases h
  rename_i T hT
  split at h
  · cases h
  rename_i G hG
  dsimp only at h
  split_ifs at h with hjoins hchild hsid
  cases h
  unfold pidGetTaskZombie at hT
  simp only [ite_none_right_eq_some] at hT
  refine ⟨T, G, hT.2, rfl, hG, ?_⟩
  by_contra hcon
  push Not at hcon
  exact hchild hcon

theorem setsidCheck_ok (h : s.setsidCheck t = .ok g) :
    ∃ T G, s.task t = some T ∧ T.group = g ∧ s.group g = some G := by
  unfold setsidCheck at h
  split at h
  · cases h
  rename_i T hT
  split at h
  · cases h
  rename_i G hG
  split_ifs at h
  cases h
  exact ⟨T, G, hT, rfl, hG⟩

/-- A group that gets a process group of its own: the list is that of its number. -/
theorem Grouped.setpgid (h : s.Grouped) (hcheck : s.setpgidCheck t id pgid = .ok g)
    (heq : id = pgid) : { s.modGroup g (fun G => { G with pgid := pgid }) with
      pgroup := link (unlink s.pgroup g) id g }.Grouped := by
  obtain ⟨T, G, hT, -, hG, -⟩ := setpgidCheck_ok hcheck
  refine h.regroup g (some { G with pgid := pgid }) rfl (by simp [modGroup, hG]) ?_ ?_ ?_
  · rw [heq]
    exact h.pgroup.move g pgid
  · have hsame : update s.sidOf g (some G.sid) = s.sidOf := by
      rw [update_eq_self_iff]
      simp [sidOf, hG]
    exact hsame.symm ▸ h.session
  · rintro _ ⟨⟩
    exact ⟨heq ▸ h.range id T hT, h.leader g G hG⟩

theorem Grouped.setsid (h : s.Grouped) (hcheck : s.setsidCheck t = .ok t) :
    { s.modGroup t (fun G => { G with sid := t, pgid := t }) with
      session := link (unlink s.session t) t t
      pgroup := link (unlink s.pgroup t) t t }.Grouped := by
  obtain ⟨T, G, hT, -, hG⟩ := setsidCheck_ok hcheck
  refine h.regroup t (some { G with sid := t, pgid := t }) rfl (by simp [modGroup, hG])
    (h.pgroup.move t t) (h.session.move t t) ?_
  rintro _ ⟨⟩
  exact ⟨h.range t T hT, h.leader t G hG⟩

/-! ## Waiting -/

theorem Grouped.reapIfNeeded (h : s.Grouped) {z : Pid} {options : WaitOptions}
    (hreap : s.reapIfNeeded z options = some (status, s')) : s'.Grouped := by
  rcases reapIfNeeded_effect hreap with rfl | ⟨-, -, -, rfl⟩ | rfl | ⟨-, -, -, -, -, -, rfl⟩
  · exact h
  · exact h.of_same (sameGroups_modGroup s z fun _ => ⟨rfl, rfl⟩)
  · exact h.of_same (sameGroups_modTask s z fun _ => rfl)
  · exact h.reap z

end Procs

/-! ## Runs -/

namespace Sys

open Procs

/-- What a step is to do: leave every group in the lists of its numbers. -/
def StepLinked (σ : Sys) (op : Op) : Prop :=
  ∀ σ' answer, machine.step σ op = some (σ', answer) → σ'.procs.Linked

/-- A `setpgid` that passes its checks does not move the group to the process group of another
process, and a `setsid` that passes its check is called by the leader. -/
def StepOwn (σ : Sys) : Op → Prop
  | .setpgid t id pgid =>
    σ.runs t = true → ∀ g,
      σ.procs.setpgidCheck t (setpgidIds t id pgid).1 (setpgidIds t id pgid).2 = .ok g →
        σ.procs.pgidOf g = some (setpgidIds t id pgid).2 ∨
          (setpgidIds t id pgid).1 = (setpgidIds t id pgid).2
  | .setsid t => σ.runs t = true → ∀ g, σ.procs.setsidCheck t = .ok g → g = t
  | _ => True

theorem step_grouped {σ σ' : Sys} {op : Op} {answer : Answer} (h : σ.procs.Grouped)
    (hown : StepOwn σ op) (hstep : machine.step σ op = some (σ', answer)) : σ'.procs.Grouped := by
  cases step_moves hstep with
  | same => exact h
  | clone _ hs => exact h.clone hs
  | setpgid hruns hcheck hother =>
    exact h.setpgid hcheck ((hown hruns _ hcheck).resolve_left hother)
  | setsid hruns hcheck =>
    obtain rfl := hown hruns _ hcheck
    exact h.setsid hcheck
  | exit _ hs => exact h.of_same (sameGroups_doExit h hs)
  | report hs => exact h.of_same (sameGroups_report _ hs)
  | found _ hscan =>
    obtain ⟨z, -, hz, -⟩ := scanned_of_scan hscan
    exact h.reapIfNeeded hz
  | leaves => exact h
  | sleeps => exact h

/-- Joining the process group of another process puts the group into the wrong list. -/
theorem setpgid_not_linked {σ : Sys} {t : Pid} {id pgid : Nat} (hruns : σ.runs t = true) {g : Pid}
    (hcheck : σ.procs.setpgidCheck t (setpgidIds t id pgid).1 (setpgidIds t id pgid).2 = .ok g)
    (hother : σ.procs.pgidOf g ≠ some (setpgidIds t id pgid).2)
    (hne : (setpgidIds t id pgid).1 ≠ (setpgidIds t id pgid).2) :
    ¬ StepLinked σ (.setpgid t id pgid) := by
  intro hlinked
  obtain ⟨T, G, -, -, hG, -⟩ := setpgidCheck_ok hcheck
  unfold pgidOf at hother
  have hstep : machine.step σ (.setpgid t id pgid) =
      some (⟨{ σ.procs.modGroup g (fun G => { G with pgid := (setpgidIds t id pgid).2 }) with
        pgroup := link (unlink σ.procs.pgroup g) (setpgidIds t id pgid).1 g }, σ.waits⟩,
        .done) := by
    simp [machine_step, step, hruns, Procs.setpgid, hcheck, hother]
  have hiff := (hlinked _ _ hstep).pgroup g { G with pgid := (setpgidIds t id pgid).2 }
    (by simp [hG]) (setpgidIds t id pgid).1
  refine hne (hiff.mp ?_).symm
  simp [link]

/-- So does a `setsid` by another thread than the leader. -/
theorem setsid_not_linked {σ : Sys} {t : Pid} (hruns : σ.runs t = true) {g : Pid}
    (hcheck : σ.procs.setsidCheck t = .ok g) (hne : g ≠ t) : ¬ StepLinked σ (.setsid t) := by
  intro hlinked
  obtain ⟨T, G, -, -, hG⟩ := setsidCheck_ok hcheck
  have hstep : machine.step σ (.setsid t) =
      some (⟨{ σ.procs.modGroup g (fun G => { G with sid := g, pgid := g }) with
        session := link (unlink σ.procs.session g) t g
        pgroup := link (unlink σ.procs.pgroup g) t g }, σ.waits⟩, .done) := by
    simp [machine_step, step, hruns, Procs.setsid, hcheck]
  have hiff := (hlinked _ _ hstep).pgroup g { G with sid := g, pgid := g } (by simp [hG]) t
  refine hne (hiff.mp ?_)
  simp [link]

theorem stepLinked_iff {σ : Sys} (h : σ.procs.Grouped) (op : Op) :
    StepLinked σ op ↔ StepOwn σ op := by
  constructor
  · intro hlinked
    cases op with
    | setpgid t id pgid =>
      intro hruns g hcheck
      by_contra hcon
      push Not at hcon
      exact setpgid_not_linked hruns hcheck hcon.1 hcon.2 hlinked
    | setsid t =>
      intro hruns g hcheck
      by_contra hne
      exact setsid_not_linked hruns hcheck hne hlinked
    | _ => trivial
  · intro hown σ' answer hstep
    exact (step_grouped h hown hstep).linked

theorem init_grouped : init.procs.Grouped := by
  have hone : Records (fun p : Pid => if p = 1 then [1] else [])
      (fun g : Pid => if g = 1 then some 1 else none) := by
    constructor
    · intro x k
      by_cases hx : x = 1 <;> by_cases hk : k = 1 <;> simp [hx, hk, eq_comm]
    intro k
    by_cases hk : k = 1 <;> simp [hk]
  have hpgid : init.procs.pgidOf = fun g => if g = 1 then some 1 else none := by
    funext g
    by_cases hg : g = 1 <;> simp [pgidOf, init, hg]
  have hsid : init.procs.sidOf = fun g => if g = 1 then some 1 else none := by
    funext g
    by_cases hg : g = 1 <;> simp [sidOf, init, hg]
  refine ⟨by rw [hpgid]; exact hone, by rw [hsid]; exact hone, ?_, ?_, ?_⟩
  · intro p T hT
    by_cases hp : p = 1
    · rw [hp]
      decide
    · simp [init, hp] at hT
  · intro g p hp
    rw [hpgid] at hp
    by_cases hg : g = 1
    · simp only [hg, if_true, some.injEq] at hp
      rw [← hp]
      decide
    · simp [hg] at hp
  intro g G hG
  by_cases hg : g = 1
  · simp [groupOf, init, hg]
  · simp [init, hg] at hG

/-- **The lists tell the numbers.** In a run of the whole system from its first process on, every
group is in the lists of its process group and its session after every step, and signals to a
process group reach its groups, exactly when no `setpgid` joins the process group of another
process and no `setsid` is called by a thread that is not the leader. -/
theorem run_linked_iff (ops : List Op) :
    machine.Along StepLinked init ops ↔ machine.Along StepOwn init ops :=
  Machine.along_congr (I := fun σ => σ.procs.Grouped)
    (fun _ op h => stepLinked_iff h op)
    (fun _ _ _ _ h hown hstep => step_grouped h hown hstep) init_grouped ops

/-- **A job of two processes.** The shell makes its first child a process group and moves the
second one into it. The second child then has the number of the group but is in another list, and
a signal to the group does not reach it. -/
theorem setpgid_joins_wrong_list :
    ∃ σ, machine.run init
        [.clone 1 2 false, .clone 1 3 false, .setpgid 1 2 2, .setpgid 1 3 2] =
        some (σ, [.done, .done, .done, .done]) ∧
      σ.procs.pgidOf 3 = some 2 ∧ σ.procs.pgroup 3 = [3] ∧ σ.procs.groupSignal 2 = some [2] ∧
      ¬ σ.procs.Linked := by
  refine ⟨_, rfl, by decide +kernel, by decide +kernel, by decide +kernel, ?_⟩
  intro hlinked
  have hmem := (hlinked.reaches 2 3).mpr ⟨_, rfl, by decide +kernel⟩
  exact absurd hmem (by decide +kernel)

end Sys

end Ish.Process
